import Kvtsjl.SqlStore

/-
  The conditional writes of a SQL store.
  A batch is split by kind and sent in three calls, and the flags of each are matched to keys by
  position. `compareAndWrite` is what one atomic compare-and-write makes of one entry. `Compared`
  says a list of them has taken effect on a table, each on its own row and nothing else;
  one call does that (`insertEachIfAbsent_compared` and its siblings), two lists do it one
  after the other (`Compared.append`), and so the whole batch does (`writes_compared`).
-/

namespace Kvtsjl

open Assoc (Dict)
open Effects

/-! ## One statement for each row -/

namespace SqlRows

/-- A loop of conditional statements on different rows: `act` says what one makes of the row it
    names, or that it does not match. -/
theorem foldl_each {γ : Type} {key : γ → SqlKey}
    {act : γ → Option SqlDbRow → Option (Option SqlDbRow)}
    {step : List (SqlKey × Bool) × SqlRows → γ → List (SqlKey × Bool) × SqlRows}
    (hflag : ∀ s x, (step s x).1 = s.1 ++ [(key x, (act x (s.2.get? (key x))).isSome)])
    (hrow : ∀ s x, (step s x).2.get? (key x) = (act x (s.2.get? (key x))).getD (s.2.get? (key x)))
    (hother : ∀ s x p, p ≠ key x → (step s x).2.get? p = s.2.get? p) {xs : List γ}
    (hkeys : (xs.map key).Nodup) (s : List (SqlKey × Bool) × SqlRows) :
    (xs.foldl step s).1 = s.1 ++ xs.map (fun x => (key x, (act x (s.2.get? (key x))).isSome)) ∧
    (∀ x ∈ xs, (xs.foldl step s).2.get? (key x) =
      (act x (s.2.get? (key x))).getD (s.2.get? (key x))) ∧
    ∀ p, p ∉ xs.map key → (xs.foldl step s).2.get? p = s.2.get? p := by
  induction xs generalizing s with
  | nil => exact ⟨by simp, by simp, fun _ _ => rfl⟩
  | cons x xs ih =>
    rw [List.map_cons, List.nodup_cons] at hkeys
    obtain ⟨hflags, hrows, hothers⟩ := ih hkeys.2 (step s x)
    -- the statements that follow are on other rows, which the first leaves alone
    have hsame : ∀ y ∈ xs, (step s x).2.get? (key y) = s.2.get? (key y) := by
      intro y hy
      apply hother
      intro h
      exact hkeys.1 (List.mem_map.mpr ⟨y, hy, h⟩)
    rw [List.foldl_cons]
    refine ⟨?_, ?_, ?_⟩
    · rw [hflags, hflag, List.append_assoc, List.map_cons]
      refine congrArg (s.1 ++ (key x, _) :: ·) (List.map_congr_left fun y hy => ?_)
      rw [hsame y hy]
    · intro y hy
      rcases List.mem_cons.mp hy with rfl | hy
      · rw [hothers _ hkeys.1, hrow]
      · rw [hrows y hy, hsame y hy]
    · intro p hp
      rw [List.map_cons, List.mem_cons, not_or] at hp
      rw [hothers p hp.2, hother s x p hp.1]

end SqlRows

namespace SqlDbKvBackend

variable {K V : Type} (b : SqlDbKvBackend K V)

/-! ## What a write makes of a row -/

/-- The columns a write gives a value at `now`. -/
def builtRow (value : V) (ttl : Option TtlPolicy) (createdAt : Option Instant) (now : Instant) :
    SqlDbRow := fun c =>
  if c = b.sqlKvset.expiresAtField then
    (match b.resolveTtlSeconds ttl with
      | some secs => some (createdAt.getD now + secs * 1000000)
      | none => if ttl.isSome then some ttlNoneExpiresAt else none).map Cell.number
  else if c = b.sqlKvset.updatedAtField then some (.number (createdAt.getD now))
  else b.serialize value c

/-- One atomic compare-and-write of an entry: what the entry becomes, or that it is not what
    the write was decided against. -/
def compareAndWrite (ttl : Option TtlPolicy) (now : Instant) (w : ConditionalWrite V) :
    Option SqlDbRow → Option (Option SqlDbRow)
  | none =>
    match w.seen.version, w.change with
    | none, .put value => some (some (SqlRows.inserted b.sqlKvset.setColumns
        (b.builtRow value ttl w.createdAt now)))
    | _, _ => none
  | some row =>
    if w.seen.version = some (b.versionOf row) then
      match w.change with
      | .put value => some (some (SqlRows.assign b.sqlKvset.setColumns
          (b.builtRow value ttl w.createdAt now) row))
      | .remove => some none
    else none

theorem buildWriteRow_run {key : K} {p : SqlKey} (h : b.fullKeyRow key = .ok p) (value : V)
    (ttl : Option TtlPolicy) (createdAt : Option Instant) (m : Medium SqlKey SqlDbRow) :
    (b.buildWriteRow key value ttl createdAt).run m =
      (.ok (p, b.builtRow value ttl createdAt m.clock), m) := by
  have hexpires : (b.expiresAtColumn ttl createdAt).run m =
      (.ok (match b.resolveTtlSeconds ttl with
        | some secs => some (createdAt.getD m.clock + secs * 1000000)
        | none => if ttl.isSome then some ttlNoneExpiresAt else none), m) := by
    unfold expiresAtColumn
    cases b.resolveTtlSeconds ttl with
    | none => rfl
    | some secs =>
      dsimp only
      rw [Script.run_bind, Prog.bind_ok (clockBase_run createdAt m)]
      rfl
  unfold buildWriteRow
  have hkey : (Script.done (b.fullKeyRow key) : SqlScript SqlKey).run m = (.ok p, m) := by
    rw [h]
    rfl
  rw [Script.run_bind, Prog.bind_ok hkey, Script.run_bind, Prog.bind_ok (clockBase_run createdAt m),
    Script.run_bind, Prog.bind_ok hexpires]
  rfl

/-- The statement of a version: the columns it compares. -/
theorem get?_foldl_zip {cols : List String} (f : String → Option Cell) (c : String) :
    ∀ d : Dict String (Option Cell),
      ((cols.zip (cols.map f)).foldl (fun d e => d.set e.1 e.2) d).get? c =
        if c ∈ cols then some (f c) else d.get? c := by
  induction cols with
  | nil => intro d; rfl
  | cons col cols ih =>
    intro d
    rw [List.map_cons, List.zip_cons_cons, List.foldl_cons, ih, Dict.get?_set]
    by_cases hc : c = col
    · subst hc
      by_cases hin : c ∈ cols <;> simp [hin]
    · simp [hc]

/-- A version tells apart two rows that differ in a column the view writes, and no others. -/
theorem versionOf_eq_iff {row row' : SqlDbRow} :
    b.versionOf row' = b.versionOf row ↔ ∀ c ∈ b.sqlKvset.setColumns, row' c = row c := by
  unfold versionOf
  rw [Token.columns.injEq]
  exact List.map_inj_left

/-- What a statement against the version of `row` compares. -/
def compared (row : SqlDbRow) : Dict String (Option Cell) :=
  (b.versionColumns.zip (b.versionColumns.map row)).foldl (fun d e => d.set e.1 e.2) Dict.empty

theorem expected_versionOf {key : K} {p : SqlKey} (h : b.fullKeyRow key = .ok p) {row : SqlDbRow}
    {seen : Versioned V} (hseen : seen.version = some (b.versionOf row)) :
    b.expected key seen = .ok ⟨p, b.compared row⟩ := by
  unfold expected
  rw [hseen]
  unfold versionOf
  dsimp only
  rw [h]
  show (if _ then _ else _ : Except Exn SqlRows.Expected) = _
  rw [if_pos (List.length_map _)]
  rfl

/-- NULL equal to NULL: the columns compared are those of the version. -/
theorem stillHolds_compared (row row' : SqlDbRow) :
    SqlRows.stillHolds (b.compared row) row' = true ↔ b.versionOf row' = b.versionOf row := by
  have hget : ∀ c, (b.compared row).get? c = if c ∈ b.versionColumns then some (row c) else none := by
    intro c
    unfold compared
    rw [get?_foldl_zip]
    rfl
  unfold SqlRows.stillHolds
  rw [List.all_eq_true, versionOf_eq_iff]
  change _ ↔ ∀ c ∈ b.versionColumns, row' c = row c
  constructor
  · intro hall c hc
    have hmem : (c, row c) ∈ (b.compared row).entries := by
      apply Dict.mem_entries.mpr
      rw [hget, if_pos hc]
    exact of_decide_eq_true (hall _ hmem)
  · intro hall e he
    have hmem := Dict.mem_entries.mp he
    rw [hget] at hmem
    split at hmem
    · next hc =>
      rw [← Option.some.inj hmem, hall _ hc]
      exact decide_eq_true rfl
    · cases hmem

/-! ## A list of writes that has taken effect -/

/-- The version, if there is one, is one the table gave out. -/
def HandedOut (w : ConditionalWrite V) : Prop :=
  ∀ version, w.seen.version = some version → ∃ row, version = b.versionOf row

variable (rowKey : K → SqlKey) (ttl : Option TtlPolicy) (now : Instant)

/-- Each write of `writes` was one atomic compare-and-write of its row, the keys of those that
    matched are `won`, and no other row changed. -/
structure Compared (writes : List (K × ConditionalWrite V)) (t t' : SqlRows) (won : Finset K) :
    Prop where
  won : ∀ k, k ∈ won ↔ ∃ w, (k, w) ∈ writes ∧
    (b.compareAndWrite ttl now w (t.get? (rowKey k))).isSome = true
  rows : ∀ k w, (k, w) ∈ writes → t'.get? (rowKey k) =
    (b.compareAndWrite ttl now w (t.get? (rowKey k))).getD (t.get? (rowKey k))
  others : ∀ p, p ∉ writes.map (fun e => rowKey e.1) → t'.get? p = t.get? p

variable {b rowKey ttl now} {writes more : List (K × ConditionalWrite V)} {t t' t'' : SqlRows}

theorem Compared.nil : b.Compared rowKey ttl now [] t t ∅ where
  won := by simp
  rows := by simp
  others _ _ := rfl

/-- Writes that match nothing take effect by doing nothing. -/
theorem Compared.idle (h : ∀ e ∈ writes, ∀ row, b.compareAndWrite ttl now e.2 row = none) :
    b.Compared rowKey ttl now writes t t ∅ where
  won k := by
    constructor
    · simp
    · intro ⟨w, hw, hsome⟩
      rw [h _ hw] at hsome
      cases hsome
  rows k w hw := by
    rw [h _ hw]
    rfl
  others _ _ := rfl

/-- Two lists of writes to different rows, one after the other. -/
theorem Compared.append [DecidableEq K] {won won' : Finset K}
    (h : b.Compared rowKey ttl now writes t t' won)
    (h' : b.Compared rowKey ttl now more t' t'' won')
    (hapart : ∀ e ∈ writes, ∀ e' ∈ more, rowKey e.1 ≠ rowKey e'.1) :
    b.Compared rowKey ttl now (writes ++ more) t t'' (won ∪ won') where
  won k := by
    have hsame : ∀ w, (k, w) ∈ more → t'.get? (rowKey k) = t.get? (rowKey k) := by
      intro w hw
      apply h.others
      intro hmem
      obtain ⟨e, he, hek⟩ := List.mem_map.mp hmem
      exact hapart e he _ hw hek
    rw [Finset.mem_union, h.won, h'.won]
    constructor
    · rintro (⟨w, hw, hsome⟩ | ⟨w, hw, hsome⟩)
      · exact ⟨w, List.mem_append_left _ hw, hsome⟩
      · rw [hsame w hw] at hsome
        exact ⟨w, List.mem_append_right _ hw, hsome⟩
    · intro ⟨w, hw, hsome⟩
      rcases List.mem_append.mp hw with hw | hw
      · exact .inl ⟨w, hw, hsome⟩
      · refine .inr ⟨w, hw, ?_⟩
        rw [hsame w hw]
        exact hsome
  rows k w hw := by
    rcases List.mem_append.mp hw with hw | hw
    · rw [← h.rows k w hw]
      apply h'.others
      intro hmem
      obtain ⟨e, he, hek⟩ := List.mem_map.mp hmem
      exact hapart _ hw e he hek.symm
    · have hsame : t'.get? (rowKey k) = t.get? (rowKey k) := by
        apply h.others
        intro hmem
        obtain ⟨e, he, hek⟩ := List.mem_map.mp hmem
        exact hapart e he _ hw hek
      rw [h'.rows k w hw, hsame]
  others p hp := by
    rw [List.map_append, List.mem_append, not_or] at hp
    rw [h'.others p hp.2, h.others p hp.1]

/-- The flags of a call, by position: the keys whose statement matched. -/
theorem mem_wonBy [DecidableEq K] {γ : Type} {stmt : K × ConditionalWrite V → γ} {key : γ → SqlKey}
    {hit : γ → Bool} {k : K} :
    k ∈ wonBy (writes.map (·.1)) ((writes.map stmt).map fun x => (key x, hit x)) ↔
      ∃ e ∈ writes, e.1 = k ∧ hit (stmt e) = true := by
  unfold wonBy
  rw [List.map_map, List.zip_map', List.mem_toFinset, List.mem_filterMap]
  constructor
  · intro ⟨x, hx, hk⟩
    obtain ⟨e, he, rfl⟩ := List.mem_map.mp hx
    dsimp only [Function.comp] at hk
    split at hk
    · next hhit => exact ⟨e, he, Option.some.inj hk, hhit⟩
    · cases hk
  · intro ⟨e, he, hk, hhit⟩
    refine ⟨_, List.mem_map.mpr ⟨e, he, rfl⟩, ?_⟩
    dsimp only [Function.comp]
    rw [if_pos hhit, hk]

/-- A list of statements, each sent for one write, in which the row a statement names is the
    write's and what it makes of the row is what the write does. -/
theorem Compared.each [DecidableEq K] {γ : Type} (key : γ → SqlKey)
    (act : γ → Option SqlDbRow → Option (Option SqlDbRow))
    {step : List (SqlKey × Bool) × SqlRows → γ → List (SqlKey × Bool) × SqlRows}
    (hflag : ∀ s x, (step s x).1 = s.1 ++ [(key x, (act x (s.2.get? (key x))).isSome)])
    (hrow : ∀ s x, (step s x).2.get? (key x) = (act x (s.2.get? (key x))).getD (s.2.get? (key x)))
    (hother : ∀ s x p, p ≠ key x → (step s x).2.get? p = s.2.get? p)
    (stmt : K × ConditionalWrite V → γ)
    (hkey : ∀ e ∈ writes, key (stmt e) = rowKey e.1)
    (hact : ∀ e ∈ writes, ∀ row, act (stmt e) row = b.compareAndWrite ttl now e.2 row)
    (hkeys : (writes.map fun e => rowKey e.1).Nodup) (t : SqlRows) :
    b.Compared rowKey ttl now writes t ((writes.map stmt).foldl step ([], t)).2
      (wonBy (writes.map (·.1)) ((writes.map stmt).foldl step ([], t)).1) := by
  have hmap : (writes.map stmt).map key = writes.map fun e => rowKey e.1 := by
    rw [List.map_map]
    exact List.map_congr_left hkey
  obtain ⟨hflags, hrows, hothers⟩ := SqlRows.foldl_each hflag hrow hother
    (by rw [hmap]; exact hkeys) ([], t)
  dsimp only at hflags hrows hothers
  have hentry : ∀ k w, (k, w) ∈ writes → act (stmt (k, w)) (t.get? (key (stmt (k, w)))) =
      b.compareAndWrite ttl now w (t.get? (rowKey k)) := by
    intro k w hw
    rw [hkey _ hw, hact _ hw]
  refine ⟨fun k => ?_, fun k w hw => ?_, fun p hp => ?_⟩
  · rw [hflags, List.nil_append, mem_wonBy]
    constructor
    · intro ⟨e, he, hek, hsome⟩
      obtain ⟨k', w⟩ := e
      obtain rfl : k' = k := hek
      rw [hentry k' w he] at hsome
      exact ⟨w, he, hsome⟩
    · intro ⟨w, hw, hsome⟩
      refine ⟨(k, w), hw, rfl, ?_⟩
      rw [hentry k w hw]
      exact hsome
  · have hrow' := hrows _ (List.mem_map.mpr ⟨(k, w), hw, rfl⟩)
    rw [hentry k w hw, hkey _ hw] at hrow'
    exact hrow'
  · apply hothers
    rw [hmap]
    exact hp

/-! ## The three calls -/

/-- The row of each write: its key and, for a put, the values it writes. -/
def stated (b : SqlDbKvBackend K V) (rowKey : K → SqlKey) (ttl : Option TtlPolicy) (now : Instant)
    (e : K × ConditionalWrite V) : SqlKey × SqlDbRow :=
  (rowKey e.1, match e.2.change with
    | .put value => b.builtRow value ttl e.2.createdAt now
    | .remove => fun _ => none)

theorem writeRowsOf_run {m : Medium SqlKey SqlDbRow}
    (hrow : ∀ e ∈ writes, b.fullKeyRow e.1 = .ok (rowKey e.1))
    (hput : ∀ e ∈ writes, e.2.change.value?.isSome = true) :
    (b.writeRowsOf ttl writes).run m = (.ok (writes.map (b.stated rowKey ttl m.clock)), m) := by
  have hfold : ∀ (L : List (K × ConditionalWrite V)) (rows : List (SqlKey × SqlDbRow)),
      (∀ e ∈ L, e ∈ writes) → (L.foldlM (fun rows e =>
        match e.2.change with
        | .put value => do return rows ++ [← b.buildWriteRow e.1 value ttl e.2.createdAt]
        | .remove => return rows : _ → _ → SqlScript (List (SqlKey × SqlDbRow))) rows).run m =
          (.ok (rows ++ L.map (b.stated rowKey ttl m.clock)), m) := by
    intro L
    induction L with
    | nil =>
      intro rows _
      rw [List.map_nil, List.append_nil]
      rfl
    | cons e L ih =>
      intro rows hL
      have he := hL e List.mem_cons_self
      cases hchange : e.2.change with
      | remove =>
        have hsome := hput e he
        rw [hchange] at hsome
        cases hsome
      | put value =>
        have hbuilt := b.buildWriteRow_run (hrow e he) value ttl e.2.createdAt m
        have hstated : b.stated rowKey ttl m.clock e =
            (rowKey e.1, b.builtRow value ttl e.2.createdAt m.clock) := by
          unfold stated
          rw [hchange]
        have hround : (do return rows ++ [← b.buildWriteRow e.1 value ttl e.2.createdAt] :
            SqlScript (List (SqlKey × SqlDbRow))).run m =
              (.ok (rows ++ [b.stated rowKey ttl m.clock e]), m) := by
          rw [Script.run_bind, Prog.bind_ok hbuilt, hstated]
          rfl
        rw [List.foldlM_cons, Script.run_bind, hchange]
        dsimp only
        rw [Prog.bind_ok hround]
        refine (ih _ fun e' he' => hL e' (List.mem_cons_of_mem _ he')).trans ?_
        rw [List.append_assoc, List.map_cons]
        rfl
  have hall := hfold writes [] fun _ h => h
  rw [List.nil_append] at hall
  exact hall

theorem mapM_expected (hrow : ∀ e ∈ writes, b.fullKeyRow e.1 = .ok (rowKey e.1))
    {seenRow : K × ConditionalWrite V → SqlDbRow}
    (hseen : ∀ e ∈ writes, e.2.seen.version = some (b.versionOf (seenRow e))) :
    (writes.mapM fun e => b.expected e.1 e.2.seen) =
      .ok (writes.map fun e => ⟨rowKey e.1, b.compared (seenRow e)⟩) := by
  induction writes with
  | nil => rfl
  | cons e writes ih =>
    rw [List.mapM_cons, b.expected_versionOf (hrow e List.mem_cons_self) (hseen e List.mem_cons_self),
      ih (fun e' he' => hrow e' (List.mem_cons_of_mem _ he'))
        fun e' he' => hseen e' (List.mem_cons_of_mem _ he')]
    rfl

/-- One statement against a version matches where the write does. -/
theorem stillHolds_seen {w : ConditionalWrite V} {seenRow : SqlDbRow}
    (hseen : w.seen.version = some (b.versionOf seenRow)) (row : SqlDbRow) :
    SqlRows.stillHolds (b.compared seenRow) row = true ↔ w.seen.version = some (b.versionOf row) := by
  rw [stillHolds_compared, hseen, Option.some.injEq, eq_comm]

variable [DecidableEq K] (b rowKey ttl) (m : Medium SqlKey SqlDbRow)
  (all : Dict K (ConditionalWrite V))

theorem insertAbsent_compared
    (hadapter : b.adapter.supportsInsertIfAbsent = true)
    (hrow : ∀ e ∈ inserts all, b.fullKeyRow e.1 = .ok (rowKey e.1))
    (hkeys : ((inserts all).map fun e => rowKey e.1).Nodup) :
    ∃ won t', (b.insertAbsent all ttl).run m = (.ok won, { m with entries := t' }) ∧
      b.Compared rowKey ttl m.clock (inserts all) m.entries t' won := by
  have hpicked : ∀ e ∈ inserts all, e.2.seen.version = none ∧ e.2.change.value?.isSome = true := by
    intro e he
    have hp := (List.mem_filter.mp he).2
    rw [Bool.and_eq_true, Option.isNone_iff_eq_none] at hp
    exact hp
  unfold insertAbsent
  dsimp only
  split
  · next hempty =>
    rw [List.isEmpty_iff.mp hempty]
    exact ⟨∅, m.entries, rfl, Compared.nil⟩
  · rw [hadapter, if_neg (by decide), Script.run_bind,
      Prog.bind_ok (writeRowsOf_run hrow fun e he => (hpicked e he).2)]
    refine ⟨_, _, rfl, ?_⟩
    refine Compared.each (fun x : SqlKey × SqlDbRow => x.1) 
      (fun x row => row.elim (some (some (SqlRows.inserted b.sqlKvset.setColumns x.2))) fun _ => none)
      ?_ ?_ ?_ (b.stated rowKey ttl m.clock) (fun _ _ => rfl) ?_ hkeys m.entries
    · rintro ⟨flags, t⟩ ⟨k, values⟩
      cases h : t.get? k <;> simp only [h, Option.elim, Option.isSome]
    · rintro ⟨flags, t⟩ ⟨k, values⟩
      cases h : t.get? k
      · simp only [h, Option.elim, Dict.get?_set, if_true, Option.getD]
      · simp only [h, Option.elim, Option.getD]
    · rintro ⟨flags, t⟩ ⟨k, values⟩ p hp
      cases h : t.get? k
      · simp only [h, Dict.get?_set, if_neg hp]
      · simp only [h]
    · intro e he row
      obtain ⟨hversion, hput⟩ := hpicked e he
      unfold compareAndWrite stated
      cases hchange : e.2.change with
      | remove =>
        rw [hchange] at hput
        cases hput
      | put value =>
        cases row with
        | none =>
          rw [hversion]
          rfl
        | some row =>
          rw [hversion]
          rfl

/-- A removal of what a version was read from: the row, if it still is that. -/
theorem removeUnchanged_compared
    (hdeletes : b.sqlKvset.deletesRows = true)
    (hrow : ∀ e ∈ removals all, b.fullKeyRow e.1 = .ok (rowKey e.1))
    (hhanded : ∀ e ∈ removals all, b.HandedOut e.2)
    (hkeys : ((removals all).map fun e => rowKey e.1).Nodup) :
    ∃ won t', (b.removeUnchanged all).run m = (.ok won, { m with entries := t' }) ∧
      b.Compared rowKey ttl m.clock (removals all) m.entries t' won := by
  have hpicked : ∀ e ∈ removals all, e.2.change = .remove ∧
      ∃ row, e.2.seen.version = some (b.versionOf row) := by
    intro e he
    have hp := (List.mem_filter.mp he).2
    rw [Bool.and_eq_true, Option.isSome_iff_exists] at hp
    obtain ⟨⟨version, hversion⟩, hremove⟩ := hp
    obtain ⟨row, hseen⟩ := hhanded e he version hversion
    refine ⟨?_, row, by rw [hversion, hseen]⟩
    cases hchange : e.2.change with
    | remove => rfl
    | put value =>
      rw [hchange] at hremove
      cases hremove
  choose! seenRow hseenRow using fun e he => (hpicked e he).2
  unfold removeUnchanged
  dsimp only
  split
  · next hempty =>
    rw [List.isEmpty_iff.mp hempty]
    exact ⟨∅, m.entries, rfl, Compared.nil⟩
  · rw [mapM_expected hrow hseenRow]
    refine ⟨_, _, rfl, ?_⟩
    refine Compared.each (fun want : SqlRows.Expected => want.key) 
      (fun want row => row.bind fun row => if SqlRows.stillHolds want.columns row then some none else none)
      ?_ ?_ ?_ (fun e => ⟨rowKey e.1, b.compared (seenRow e)⟩) (fun _ _ => rfl) ?_ hkeys m.entries
    · rintro ⟨flags, t⟩ want
      cases h : t.get? want.key with
      | none => simp only [h, Option.bind, Option.isSome]
      | some row => cases hold : SqlRows.stillHolds want.columns row <;> simp [h, hold]
    · rintro ⟨flags, t⟩ want
      cases h : t.get? want.key with
      | none => simp only [h, Option.bind, Option.getD]
      | some row =>
        cases hold : SqlRows.stillHolds want.columns row <;> simp [h, hold, Dict.get?_erase]
    · rintro ⟨flags, t⟩ want p hp
      cases h : t.get? want.key with
      | none => simp only [h]
      | some row =>
        cases hold : SqlRows.stillHolds want.columns row <;> simp [h, hold, Dict.get?_erase, hp]
    · intro e he row
      unfold compareAndWrite
      rw [(hpicked e he).1]
      cases row with
      | none => simp only [hseenRow e he, Option.bind]
      | some row => simp only [stillHolds_seen (hseenRow e he), Option.bind]

theorem replaceUnchanged_compared
    (hrow : ∀ e ∈ replaces all, b.fullKeyRow e.1 = .ok (rowKey e.1))
    (hhanded : ∀ e ∈ replaces all, b.HandedOut e.2)
    (hkeys : ((replaces all).map fun e => rowKey e.1).Nodup) :
    ∃ won t', (b.replaceUnchanged all ttl).run m = (.ok won, { m with entries := t' }) ∧
      b.Compared rowKey ttl m.clock (replaces all) m.entries t' won := by
  have hpicked : ∀ e ∈ replaces all, e.2.change.value?.isSome = true ∧
      ∃ row, e.2.seen.version = some (b.versionOf row) := by
    intro e he
    have hp := (List.mem_filter.mp he).2
    rw [Bool.and_eq_true, Option.isSome_iff_exists] at hp
    obtain ⟨⟨version, hversion⟩, hput⟩ := hp
    obtain ⟨row, hseen⟩ := hhanded e he version hversion
    exact ⟨hput, row, by rw [hversion, hseen]⟩
  choose! seenRow hseenRow using fun e he => (hpicked e he).2
  unfold replaceUnchanged
  dsimp only
  split
  · next hempty =>
    rw [List.isEmpty_iff.mp hempty]
    exact ⟨∅, m.entries, rfl, Compared.nil⟩
  · have hrows : (b.writeRowsOf ttl (replaces all)).run m =
        (.ok ((replaces all).map (b.stated rowKey ttl m.clock)), m) :=
      writeRowsOf_run hrow fun e he => (hpicked e he).1
    rw [mapM_expected hrow hseenRow]
    show ∃ won t', Script.run (do
      let rows ← b.writeRowsOf ttl (replaces all)
      let written ← Medium.change (fun t => SqlRows.replaceEachIf t b.sqlKvset.setColumns
        ((((replaces all).map fun e => (⟨rowKey e.1, b.compared (seenRow e)⟩ : SqlRows.Expected))).zip
          (rows.map (·.2)))) fun flags => (SqlRows.flagged flags).map Deed.wrote
      return wonBy ((replaces all).map (·.1)) written) m = _ ∧ _
    rw [Script.run_bind, Prog.bind_ok hrows]
    refine ⟨_, _, rfl, ?_⟩
    dsimp only
    rw [List.map_map, List.zip_map']
    refine Compared.each (fun x : SqlRows.Expected × SqlDbRow => x.1.key) 
      (fun x row => row.bind fun row => if SqlRows.stillHolds x.1.columns row then
        some (some (SqlRows.assign b.sqlKvset.setColumns x.2 row)) else none)
      ?_ ?_ ?_ (fun e => (⟨rowKey e.1, b.compared (seenRow e)⟩, (b.stated rowKey ttl m.clock e).2))
      (fun _ _ => rfl) ?_ hkeys m.entries
    · rintro ⟨flags, t⟩ ⟨want, values⟩
      cases h : t.get? want.key with
      | none => simp only [h, Option.bind, Option.isSome]
      | some row => cases hold : SqlRows.stillHolds want.columns row <;> simp [h, hold]
    · rintro ⟨flags, t⟩ ⟨want, values⟩
      cases h : t.get? want.key with
      | none => simp only [h, Option.bind, Option.getD]
      | some row =>
        cases hold : SqlRows.stillHolds want.columns row <;> simp [h, hold, Dict.get?_set]
    · rintro ⟨flags, t⟩ ⟨want, values⟩ p hp
      cases h : t.get? want.key with
      | none => simp only [h]
      | some row =>
        cases hold : SqlRows.stillHolds want.columns row <;> simp [h, hold, Dict.get?_set, hp]
    · intro e he row
      have hput := (hpicked e he).1
      unfold compareAndWrite stated
      cases hchange : e.2.change with
      | remove =>
        rw [hchange] at hput
        cases hput
      | put value =>
        cases row with
        | none => simp only [hseenRow e he, Option.bind]
        | some row => simp only [stillHolds_seen (hseenRow e he), Option.bind]

/-! ## The batch -/

/-- The writes of a batch that are sent nowhere: removals of what was not there. -/
def idles (all : Dict K (ConditionalWrite V)) : List (K × ConditionalWrite V) :=
  picked all fun w => w.seen.version.isNone && w.change.value?.isNone

omit [DecidableEq K] in
theorem mem_kinds {all : Dict K (ConditionalWrite V)} {e : K × ConditionalWrite V} :
    e ∈ inserts all ++ removals all ++ replaces all ++ idles all ↔ e ∈ all.entries := by
  unfold inserts removals replaces idles picked
  simp only [List.mem_append, List.mem_filter]
  constructor
  · rintro (((h | h) | h) | h) <;> exact h.1
  · intro he
    cases hversion : e.2.seen.version.isNone <;> cases hput : e.2.change.value?.isNone <;>
      simp_all [Option.isSome_iff_ne_none]

omit [DecidableEq K] in
/-- On a table of its own, SQLite is refused nothing. -/
theorem refusal_unshared (hsqlite : b.adapter = .sqlite)
    (hunshared : b.sqlKvset.sharesTable = false) : b.refusal all = none := by
  have hcreates : b.createsEntries = true := by
    unfold createsEntries
    rw [hunshared, Bool.not_false, Bool.or_true]
  have hdeletes : b.sqlKvset.deletesRows = true := by
    unfold SqlDbKvSet.deletesRows
    rw [hunshared, Bool.not_false, Bool.or_true]
  have hversioned : refusal.versioned b all = none := by
    unfold refusal.versioned
    rw [hsqlite, hdeletes]
    simp [SqlDbClientAdapter.sqlite]
  unfold refusal
  dsimp only
  rw [hcreates, hversioned]
  split <;> rfl

/-- A batch of conditional writes on a table of its own is one atomic compare-and-write of each
    key's row: it returns the keys whose row was what the write was decided against, those rows
    are written or deleted, and every other row is as it was. -/
theorem batchWriteIfUnchanged_compares {K V : Type} [DecidableEq K] (b : SqlDbKvBackend K V)
    (hsqlite : b.adapter = .sqlite) (hunshared : b.sqlKvset.sharesTable = false)
    (hcodec : ∀ k p, b.fullKeyRow k = .ok p → b.decodeLeafKey p = some k)
    (rowKey : K → SqlKey) (writes : Dict K (ConditionalWrite V))
    (hrow : ∀ k ∈ writes.keys, b.fullKeyRow k = .ok (rowKey k))
    (hhanded : ∀ k w, writes.get? k = some w → b.HandedOut w) (ttl : Option TtlPolicy)
    (m : Medium SqlKey SqlDbRow) :
    ∃ written t, (b.batchWriteIfUnchanged writes ttl).run m = (.ok written, { m with entries := t }) ∧
      (∀ k, k ∈ written ↔ ∃ w, writes.get? k = some w ∧
        (b.compareAndWrite ttl m.clock w (m.entries.get? (rowKey k))).isSome = true) ∧
      (∀ k w, writes.get? k = some w → t.get? (rowKey k) =
        (b.compareAndWrite ttl m.clock w (m.entries.get? (rowKey k))).getD (m.entries.get? (rowKey k))) ∧
      ∀ p, (∀ k ∈ writes.keys, rowKey k ≠ p) → t.get? p = m.entries.get? p := by
  have hkey : ∀ e ∈ writes.entries, b.fullKeyRow e.1 = .ok (rowKey e.1) := fun e he =>
    hrow e.1 (List.mem_map.mpr ⟨e, he, rfl⟩)
  have hgiven : ∀ e ∈ writes.entries, b.HandedOut e.2 := fun e he =>
    hhanded e.1 e.2 (Dict.mem_entries.mp he)
  -- two writes of one row are one write
  have hsame : ∀ e ∈ writes.entries, ∀ e' ∈ writes.entries, rowKey e.1 = rowKey e'.1 → e = e' := by
    intro e he e' he' heq
    have hk : e.1 = e'.1 := by
      have hread := hcodec e.1 _ (hkey e he)
      rw [heq, hcodec e'.1 _ (hkey e' he')] at hread
      exact (Option.some.inj hread).symm
    have hw := Dict.mem_entries.mp he
    rw [hk, Dict.mem_entries.mp he'] at hw
    exact Prod.ext hk (Option.some.inj hw).symm
  have hnodup : (writes.entries.map fun e => rowKey e.1).Nodup := by
    have hentries : writes.entries.Nodup := List.Nodup.of_map _ writes.nodup
    exact List.Nodup.map_on hsame hentries
  have hkind : ∀ p : ConditionalWrite V → Bool, ((picked writes p).map fun e => rowKey e.1).Nodup :=
    fun p => (List.filter_sublist.map _).nodup hnodup
  have hpicked : ∀ p : ConditionalWrite V → Bool, ∀ e ∈ picked writes p, e ∈ writes.entries ∧ p e.2 = true :=
    fun p e he => List.mem_filter.mp he
  have hdeletes : b.sqlKvset.deletesRows = true := by
    unfold SqlDbKvSet.deletesRows
    rw [hunshared, Bool.not_false, Bool.or_true]
  -- the three calls, each from the table the one before it left
  obtain ⟨inserted, t₁, hinsert, hinserted⟩ := insertAbsent_compared b rowKey ttl m writes
    (by rw [hsqlite]; rfl) (fun e he => hkey e (hpicked _ e he).1) (hkind _)
  obtain ⟨removed, t₂, hremove, hremoved⟩ := removeUnchanged_compared b rowKey ttl
    { m with entries := t₁ } writes hdeletes (fun e he => hkey e (hpicked _ e he).1)
    (fun e he => hgiven e (hpicked _ e he).1) (hkind _)
  obtain ⟨replaced, t₃, hreplace, hreplaced⟩ := replaceUnchanged_compared b rowKey ttl
    { m with entries := t₂ } writes (fun e he => hkey e (hpicked _ e he).1)
    (fun e he => hgiven e (hpicked _ e he).1) (hkind _)
  have hrun : (b.batchWriteIfUnchanged writes ttl).run m =
      (.ok (inserted ∪ removed ∪ replaced), { m with entries := t₃ }) := by
    unfold batchWriteIfUnchanged
    rw [refusal_unshared b writes hsqlite hunshared]
    dsimp only
    rw [Script.run_bind, Prog.bind_ok hinsert, Script.run_bind, Prog.bind_ok hremove,
      Script.run_bind, Prog.bind_ok hreplace]
    rfl
  -- writes of different kinds are of different rows
  have hapart : ∀ p q : ConditionalWrite V → Bool, (∀ w, p w = true → q w = true → False) →
      ∀ e ∈ picked writes p, ∀ e' ∈ picked writes q, rowKey e.1 ≠ rowKey e'.1 := by
    intro p q hpq e he e' he' heq
    obtain ⟨hmem, hp⟩ := hpicked p e he
    obtain ⟨hmem', hq⟩ := hpicked q e' he'
    rw [hsame e hmem e' hmem' heq] at hp
    exact hpq _ hp hq
  have hidle : b.Compared rowKey ttl m.clock (idles writes) t₃ t₃ ∅ := by
    apply Compared.idle
    intro e he row
    have hp := (hpicked _ e he).2
    rw [Bool.and_eq_true, Option.isNone_iff_eq_none] at hp
    unfold compareAndWrite
    cases row with
    | none =>
      cases hchange : e.2.change with
      | remove => cases e.2.seen.version <;> rfl
      | put value =>
        rw [hchange] at hp
        cases hp.2
    | some row =>
      rw [hp.1]
      exact if_neg (by simp)
  have hall : b.Compared rowKey ttl m.clock
      (inserts writes ++ removals writes ++ replaces writes ++ idles writes) m.entries t₃
      (inserted ∪ removed ∪ replaced ∪ ∅) := by
    refine ((hinserted.append hremoved (hapart _ _ ?_)).append hreplaced ?_).append hidle ?_
    · intro w h h'
      cases hv : w.seen.version <;> simp [hv] at h h'
    · intro e he
      rcases List.mem_append.mp he with he | he
      · refine hapart _ _ (fun w h h' => ?_) e he
        cases hv : w.seen.version <;> simp [hv] at h h'
      · refine hapart _ _ (fun w h h' => ?_) e he
        cases hc : w.change.value? <;> simp [hc] at h h'
    · intro e he
      rcases List.mem_append.mp he with he | he
      · rcases List.mem_append.mp he with he | he
        · refine hapart _ _ (fun w h h' => ?_) e he
          cases hc : w.change.value? <;> simp [hc] at h h'
        · refine hapart _ _ (fun w h h' => ?_) e he
          cases hv : w.seen.version <;> simp [hv] at h h'
      · refine hapart _ _ (fun w h h' => ?_) e he
        cases hv : w.seen.version <;> simp [hv] at h h'
  rw [Finset.union_empty] at hall
  refine ⟨_, t₃, hrun, fun k => ?_, fun k w hw => ?_, fun p hp => ?_⟩
  · rw [hall.won]
    constructor
    · intro ⟨w, hw, hsome⟩
      exact ⟨w, Dict.mem_entries.mp (mem_kinds.mp hw), hsome⟩
    · intro ⟨w, hw, hsome⟩
      exact ⟨w, mem_kinds.mpr (Dict.mem_entries.mpr hw), hsome⟩
  · exact hall.rows k w (mem_kinds.mpr (Dict.mem_entries.mpr hw))
  · apply hall.others
    intro hmem
    obtain ⟨e, he, heq⟩ := List.mem_map.mp hmem
    exact hp e.1 (List.mem_map.mpr ⟨e, mem_kinds.mp he, rfl⟩) heq

/-! ## A table of notes -/

/-- Notes under text keys, in a table of their own that SQLite holds. -/
def notes : SqlDbKvBackend String String where
  sqlKvset := .keyed "notes" "v" false
  adapter := .sqlite
  expiryGc := .hide
  batchSize := 500
  ttlPolicy := ⟨none⟩
  keyLayout := .literal
  scope := Dict.empty
  leafKeyRow key := .ok [.text key]
  decodeLeafKey
    | [.text key] => some key
    | _ => none
  leafPrefixMap
    | none => Dict.empty
    | some pre => Dict.single "k" pre
  decodeCursor := .ok
  serialize value column := if column = "v" then some (.text value) else none
  deserialize _ row := match row "v" with
    | some (.text value) => .ok value
    | _ => .error (.serDeError "no value")
  parseTimestamp text := .error (.valueError text)
  reprKey key := "'" ++ key ++ "'"

/-- A note that never expires, and so with a NULL in its version. -/
def oldNote : SqlDbRow := fun column => if column = "v" then some (.text "old") else none

def oneNote : Medium SqlKey SqlDbRow := ⟨Dict.single [.text "a"] oldNote, 10⟩

/-- Replace the note as it is, and insert one beside it. -/
def replaceAndInsert : Dict String (ConditionalWrite String) :=
  (Dict.single "a" ⟨⟨some "old", some (notes.versionOf oldNote)⟩, .put "new", none⟩).set "b"
    ⟨Versioned.absent, .put "more", none⟩

theorem batchWriteIfUnchanged_compares_notes : ∃ written t,
    (notes.batchWriteIfUnchanged replaceAndInsert none).run oneNote =
      (.ok written, { oneNote with entries := t }) ∧ "a" ∈ written ∧ "b" ∈ written := by
  have hcodec : ∀ k p, notes.fullKeyRow k = .ok p → notes.decodeLeafKey p = some k := by
    intro k p h
    cases h
    rfl
  have hhanded : ∀ k w, replaceAndInsert.get? k = some w → notes.HandedOut w := by
    intro k w h version hversion
    refine ⟨oldNote, ?_⟩
    unfold replaceAndInsert at h
    rw [Dict.get?_set, Dict.get?_single] at h
    split at h
    · cases h
      cases hversion
    · split at h
      · cases h
        cases hversion
        rfl
      · cases h
  obtain ⟨written, t, hrun, hwritten, -, -⟩ := batchWriteIfUnchanged_compares notes rfl rfl hcodec
    (fun k => [.text k]) replaceAndInsert (fun _ _ => rfl) hhanded none oneNote
  refine ⟨written, t, hrun, (hwritten "a").mpr ⟨_, rfl, ?_⟩, (hwritten "b").mpr ⟨_, rfl, rfl⟩⟩
  rfl

end SqlDbKvBackend

end Kvtsjl
