import Kvtsjl.SqlPrefixScans

/-
  The keyset scan, over any adapter.
  `_iter_keyset_rows` asks for one page after the other, each after the last row of the page before. Where
  the adapter gives the first rows strictly after that one, in ascending order, the pages come to one pass
  over all of them, wherever the page boundaries fall (`keysetScan_once`). Where it does not look at the
  key it is given, the second page shows it, and the scan raises.
-/

namespace Kvtsjl

open Assoc (Dict)
open Effects Prog

/-- `scan_page_by_key_parts` of an adapter for one table, filter and page size: the page after a key. -/
abbrev PageScan := SqlRows → Option SqlKey → Nat → List (SqlKey × SqlDbRow)

/-- The first rows that match, strictly after the key, in ascending order. -/
def PageScan.Ascends (page : PageScan) (lt : SqlKey → SqlKey → Prop) (selects : SqlKey → Bool) : Prop :=
  ∀ t after, ∃ rest : List (SqlKey × SqlDbRow), rest.Pairwise (fun x y => lt x.1 y.1) ∧
    (∀ row, row ∈ rest ↔ row ∈ t.entries ∧ selects row.1 = true ∧ ∀ k, after = some k → lt k row.1) ∧
    ∀ n, page t after n = rest.take n

namespace SqlDbKvBackend

variable {K V : Type} (b : SqlDbKvBackend K V)

/-- `keysetRows`, the pages from any adapter. -/
def keysetRowsOver (page : PageScan) (pageSize : Nat) (includeValues : Bool) (limit draws : Option Nat) :
    Nat → Option SqlKey → Drawn K V → SqlScript (Drawn K V)
  | 0, _, d => pure { d with state := .closed }
  | pages + 1, after, d => do
    let rows ← Medium.fetch fun t => page t after pageSize
    match rows.getLast? with
    | none => return d
    | some last =>
      let d ← rows.foldlM (b.drawRow b.collects includeValues limit draws) d
      if d.state ≠ .drawing then return d
      else if after = some last.1 then
        .done (.error (.kvStoreError (b.adapter.name ++ ".scan_page_by_key_parts returned a page that " ++
          "does not advance after_key; the scan would never terminate")))
      else if rows.length < pageSize then return d
      else keysetRowsOver page pageSize includeValues limit draws pages (some last.1) d

/-- `_iter_keyset_rows` over any adapter, its rows drawn to the end. -/
def keysetScanOver (page : PageScan) (pageSize : Nat) (includeValues : Bool) (limit : Option Nat) (pages : Nat)
    (after : Option SqlKey) : SqlScript (List (K × Option V)) :=
  if pageSize < 1 then .done (.error (.valueError ("page_size must be >= 1, got " ++ toString pageSize)))
  else do finishRows (← b.keysetRowsOver page pageSize includeValues limit none pages after ⟨[], [], .drawing⟩)

/-- The adapter whose calls the store is modelled over is one of them. -/
theorem keysetRows_eq (exact : Dict String Cell) (prefixes : Dict String String) (pageSize : Nat)
    (includeValues : Bool) (limit draws : Option Nat) (pages : Nat) : ∀ after d,
      b.keysetRows exact prefixes pageSize includeValues limit draws pages after d =
        b.keysetRowsOver (fun t after n => t.scanPageByKeyParts b.sqlKvset.keyFields exact prefixes after n) pageSize
          includeValues limit draws pages after d := by
  induction pages with
  | zero => exact fun _ _ => rfl
  | succ pages ih =>
    intro after d
    have hrest : b.keysetRows exact prefixes pageSize includeValues limit draws pages =
        b.keysetRowsOver (fun t after n => t.scanPageByKeyParts b.sqlKvset.keyFields exact prefixes after n) pageSize
          includeValues limit draws pages := funext fun after => funext (ih after)
    rw [keysetRows, hrest]
    rfl

theorem iterKeysetRows_eq (spec : SqlScan K) (after : Option SqlKey) (pages : Nat) :
    (do finishRows (← b.iterKeysetRows spec after none pages) : SqlScript (List (K × Option V))) =
      b.keysetScanOver (fun t after n => t.scanPageByKeyParts b.sqlKvset.keyFields b.scopeCells
        (b.leafPrefixMap spec.keyPrefix) after n) spec.pageSize spec.includeValues spec.limit pages after := by
  unfold iterKeysetRows keysetScanOver
  split
  · rfl
  · rw [scopeKeyRow_false]
    simp only [keysetRows_eq]
    rfl

theorem scanPageByKeyParts_ascends (keyFields : List String) (exact : Dict String Cell)
    (prefixes : Dict String String) :
    PageScan.Ascends (fun t after n => t.scanPageByKeyParts keyFields exact prefixes after n)
      (fun k l => SqlRows.keyLe l k = false) (SqlRows.selects keyFields exact prefixes) := by
  intro t after
  refine ⟨_, (SqlRows.scanByKeyParts_sorted t keyFields exact prefixes).filter _, fun row => ?_, fun n => rfl⟩
  rw [List.mem_filter]
  unfold SqlRows.scanByKeyParts SqlRows.ordered
  rw [List.mem_mergeSort, List.mem_filter, and_assoc]
  refine and_congr_right fun _ => and_congr_right fun _ => ?_
  cases after with
  | none => simp
  | some k => simp

variable {b}

/-! ## Drawing rows -/

section Drawing

variable {includeValues : Bool} {limit draws : Option Nat} {collect : Bool}

/-- What the generator makes of a row: nothing where it has expired, is not held or is not read as a key. -/
def turn (b : SqlDbKvBackend K V) (includeValues : Bool) (now : Instant) (row : SqlKey × SqlDbRow) :
    Except Exn (Option (K × Option V)) := do
  if ← b.rowExpiredAt row.2 now then return none
  else if !b.holds row.2 then return none
  else
    match b.decodeLeafKey row.1 with
    | none => return none
    | some key => do
      let value ← if includeValues then (b.readRow row).map some else .ok none
      return some (key, value)

theorem drawRow_stopped {d : Drawn K V} (h : d.state ≠ .drawing) (row : SqlKey × SqlDbRow) :
    b.drawRow collect includeValues limit draws d row = pure d := by
  unfold drawRow
  rw [if_pos h]

theorem drawRows_stopped {d : Drawn K V} (h : d.state ≠ .drawing) (rows : List (SqlKey × SqlDbRow)) :
    rows.foldlM (b.drawRow collect includeValues limit draws) d = pure d := by
  induction rows with
  | nil => rfl
  | cons row rows ih =>
    rw [List.foldlM_cons, drawRow_stopped h, pure_bind]
    exact ih

theorem rowExpired_run_eq (row : SqlDbRow) (m : Medium SqlKey SqlDbRow) :
    (b.rowExpired row).run m = (b.rowExpiredAt row m.clock, m) := rfl

/-- A turn of the generator that is still drawing. -/
theorem drawRow_run_eq {d : Drawn K V} (hd : d.state = .drawing) (row : SqlKey × SqlDbRow)
    (m : Medium SqlKey SqlDbRow) :
    (b.drawRow collect includeValues limit draws d row).run m =
      ((b.rowExpiredAt row.2 m.clock).bind fun expired => (b.turn includeValues m.clock row).map fun shown =>
        match shown with
        | none => if expired && collect then { d with expired := d.expired ++ [row] } else d
        | some entry => { d with
            rows := d.rows ++ [entry]
            state :=
              if draws.any (· ≤ (d.rows ++ [entry]).length) then .closed
              else if limit.any (· ≤ (d.rows ++ [entry]).length) then .full
              else .drawing }, m) := by
  unfold drawRow turn
  rw [if_neg (not_not.mpr hd), Script.run_bind]
  cases hexpired : b.rowExpiredAt row.2 m.clock with
  | error e =>
    have hraises : (b.rowExpired row.2).run m = (.error e, m) := by
      rw [rowExpired_run_eq, hexpired]
    rw [bind_error hraises]
    rfl
  | ok expired =>
    have hruns : (b.rowExpired row.2).run m = (.ok expired, m) := by
      rw [rowExpired_run_eq, hexpired]
    rw [bind_ok hruns]
    cases expired with
    | true =>
      show (Except.ok (if collect = true then _ else d), m) = (Except.ok (if (true && collect) = true then _ else d), m)
      rw [Bool.true_and]
    | false =>
      rw [if_neg Bool.false_ne_true]
      cases b.holds row.2 with
      | false => rfl
      | true =>
        cases b.decodeLeafKey row.1 with
        | none => rfl
        | some key =>
          cases includeValues with
          | false => rfl
          | true => cases b.readRow row <;> rfl

/-- Drawing changes nothing in the table. -/
theorem drawRow_same (d : Drawn K V) (row : SqlKey × SqlDbRow) (m : Medium SqlKey SqlDbRow) :
    ((b.drawRow collect includeValues limit draws d row).run m).2 = m := by
  by_cases hd : d.state = .drawing
  · rw [drawRow_run_eq hd]
  · rw [drawRow_stopped hd]
    rfl

theorem drawRows_same (rows : List (SqlKey × SqlDbRow)) (m : Medium SqlKey SqlDbRow) : ∀ d : Drawn K V,
    ((rows.foldlM (b.drawRow collect includeValues limit draws) d).run m).2 = m := by
  induction rows with
  | nil => exact fun _ => rfl
  | cons row rows ih =>
    intro d
    rw [List.foldlM_cons, Script.run_bind]
    have hsame : ((b.drawRow collect includeValues limit draws d row).run m).2 = m := drawRow_same d row m
    rcases hrow : (b.drawRow collect includeValues limit draws d row).run m with ⟨e | d1, m1⟩
    · rw [bind_error hrow]
      rw [hrow] at hsame
      exact hsame
    · rw [bind_ok hrow]
      rw [hrow] at hsame
      obtain rfl : m1 = m := hsame
      exact ih d1

/-- Rows drawn to the end close nothing. -/
theorem drawRow_open {d d' : Drawn K V} {row : SqlKey × SqlDbRow} {m : Medium SqlKey SqlDbRow}
    (hopen : d.state ≠ .closed) (h : ((b.drawRow collect includeValues limit none d row).run m).1 = .ok d') :
    d'.state ≠ .closed := by
  by_cases hd : d.state = .drawing
  · rw [drawRow_run_eq hd] at h
    cases hexpired : b.rowExpiredAt row.2 m.clock with
    | error e =>
      rw [hexpired] at h
      cases h
    | ok expired =>
      rw [hexpired] at h
      rcases hturn : b.turn includeValues m.clock row with e | _ | entry
      · rw [hturn] at h
        cases h
      · rw [hturn] at h
        have heq : (if (expired && collect) = true then { d with expired := d.expired ++ [row] } else d) = d' :=
          Except.ok.inj h
        rw [← heq]
        split <;> exact hopen
      · rw [hturn] at h
        have heq := congrArg Drawn.state (Except.ok.inj h)
        rw [← heq]
        dsimp only
        rw [if_neg (by simp)]
        split <;> exact Draw.noConfusion
  · rw [drawRow_stopped hd] at h
    rw [← Except.ok.inj h]
    exact hopen

theorem drawRows_open (rows : List (SqlKey × SqlDbRow)) (m : Medium SqlKey SqlDbRow) : ∀ d d' : Drawn K V,
    d.state ≠ .closed → ((rows.foldlM (b.drawRow collect includeValues limit none) d).run m).1 = .ok d' →
    d'.state ≠ .closed := by
  induction rows with
  | nil =>
    intro d d' hopen h
    rw [← Except.ok.inj h]
    exact hopen
  | cons row rows ih =>
    intro d d' hopen h
    rw [List.foldlM_cons, Script.run_bind] at h
    have hsame : ((b.drawRow collect includeValues limit none d row).run m).2 = m := drawRow_same d row m
    rcases hrow : (b.drawRow collect includeValues limit none d row).run m with ⟨e | d1, m1⟩
    · rw [bind_error hrow] at h
      cases h
    · rw [bind_ok hrow] at h
      rw [hrow] at hsame
      obtain rfl : m1 = m := hsame
      exact ih d1 d' (drawRow_open hopen (congrArg Prod.fst hrow)) h

theorem drawRow_expired {d d' : Drawn K V} {row : SqlKey × SqlDbRow} {m : Medium SqlKey SqlDbRow}
    (h : ((b.drawRow collect includeValues limit draws d row).run m).1 = .ok d') (x : SqlKey × SqlDbRow)
    (hx : x ∈ d'.expired) :
    x ∈ d.expired ∨ collect = true ∧ x = row ∧ b.rowExpiredAt x.2 m.clock = .ok true := by
  by_cases hd : d.state = .drawing
  · rw [drawRow_run_eq hd] at h
    cases hexpired : b.rowExpiredAt row.2 m.clock with
    | error e =>
      rw [hexpired] at h
      cases h
    | ok expired =>
      rw [hexpired] at h
      rcases hturn : b.turn includeValues m.clock row with e | _ | entry
      · rw [hturn] at h
        cases h
      · rw [hturn] at h
        have heq : (if (expired && collect) = true then { d with expired := d.expired ++ [row] } else d) = d' :=
          Except.ok.inj h
        rw [← heq] at hx
        split at hx
        · next hboth =>
          rw [Bool.and_eq_true] at hboth
          rcases List.mem_append.mp hx with hx | hx
          · exact .inl hx
          · rw [List.mem_singleton] at hx
            rw [hx, hexpired, hboth.1]
            exact .inr ⟨hboth.2, rfl, rfl⟩
        · exact .inl hx
      · rw [hturn] at h
        rw [← Except.ok.inj h] at hx
        exact .inl hx
  · rw [drawRow_stopped hd] at h
    rw [← Except.ok.inj h] at hx
    exact .inl hx

/-- What is set aside for deletion has expired, and is set aside only where that is asked for. -/
theorem drawRows_expired (rows : List (SqlKey × SqlDbRow)) (m : Medium SqlKey SqlDbRow) : ∀ d d' : Drawn K V,
    ((rows.foldlM (b.drawRow collect includeValues limit draws) d).run m).1 = .ok d' → ∀ x ∈ d'.expired,
      x ∈ d.expired ∨ collect = true ∧ x ∈ rows ∧ b.rowExpiredAt x.2 m.clock = .ok true := by
  induction rows with
  | nil =>
    intro d d' h x hx
    rw [← Except.ok.inj h] at hx
    exact .inl hx
  | cons row rows ih =>
    intro d d' h x hx
    rw [List.foldlM_cons, Script.run_bind] at h
    have hsame : ((b.drawRow collect includeValues limit draws d row).run m).2 = m := drawRow_same d row m
    rcases hrow : (b.drawRow collect includeValues limit draws d row).run m with ⟨e | d1, m1⟩
    · rw [bind_error hrow] at h
      cases h
    · rw [bind_ok hrow] at h
      rw [hrow] at hsame
      obtain rfl : m1 = m := hsame
      rcases ih d1 d' h x hx with hx | ⟨hcollect, hmem, hdead⟩
      · have hone : ((b.drawRow collect includeValues limit draws d row).run m1).1 = .ok d1 := by rw [hrow]
        rcases drawRow_expired hone x hx with hx | ⟨hcollect, rfl, hdead⟩
        · exact .inl hx
        · exact .inr ⟨hcollect, List.mem_cons_self, hdead⟩
      · exact .inr ⟨hcollect, List.mem_cons_of_mem _ hmem, hdead⟩

/-- Drawn to the end, the generator gives what its turns come to. -/
theorem drawRows_run_eq (rows : List (SqlKey × SqlDbRow)) (m : Medium SqlKey SqlDbRow) : ∀ {d : Drawn K V},
    d.state = .drawing → ∃ expired, (rows.foldlM (b.drawRow collect includeValues none none) d).run m =
      ((rows.mapM (b.turn includeValues m.clock)).map fun shown =>
        ⟨d.rows ++ shown.filterMap id, expired, .drawing⟩, m) := by
  induction rows with
  | nil =>
    intro d hd
    refine ⟨d.expired, ?_⟩
    show (Except.ok d, m) = (Except.ok (⟨d.rows ++ [], d.expired, .drawing⟩ : Drawn K V), m)
    rw [List.append_nil, ← hd]
  | cons row rows ih =>
    intro d hd
    have hturn : (b.drawRow collect includeValues none none d row).run m = _ := drawRow_run_eq hd row m
    rw [List.foldlM_cons, Script.run_bind, List.mapM_cons]
    rcases hshown : b.turn includeValues m.clock row with e | _ | entry
    · have hraises : (b.drawRow collect includeValues none none d row).run m = (.error e, m) := by
        rw [hturn, hshown]
        unfold turn at hshown
        cases hexpired : b.rowExpiredAt row.2 m.clock with
        | error e' =>
          rw [hexpired] at hshown
          rw [← Except.error.inj hshown]
          rfl
        | ok expired => rfl
      rw [bind_error hraises]
      exact ⟨[], rfl⟩
    · have hreadable : ∃ expired, b.rowExpiredAt row.2 m.clock = .ok expired := by
        unfold turn at hshown
        cases hexpired : b.rowExpiredAt row.2 m.clock with
        | error e' =>
          rw [hexpired] at hshown
          cases hshown
        | ok expired => exact ⟨expired, rfl⟩
      obtain ⟨expired, hexpired⟩ := hreadable
      have hruns : (b.drawRow collect includeValues none none d row).run m =
          (.ok (if (expired && collect) = true then { d with expired := d.expired ++ [row] } else d), m) := by
        rw [hturn, hshown, hexpired]
        rfl
      rw [bind_ok hruns]
      have hstill : (if (expired && collect) = true then { d with expired := d.expired ++ [row] } else d).state =
          Draw.drawing := by
        split <;> exact hd
      have hrows : (if (expired && collect) = true then { d with expired := d.expired ++ [row] } else d).rows =
          d.rows := by
        split <;> rfl
      obtain ⟨later, hrest⟩ := ih hstill
      refine ⟨later, hrest.trans ?_⟩
      rw [hrows]
      cases rows.mapM (b.turn includeValues m.clock) <;> rfl
    · have hreadable : b.rowExpiredAt row.2 m.clock = .ok false := by
        unfold turn at hshown
        rcases hexpired : b.rowExpiredAt row.2 m.clock with e | _ | _
        · rw [hexpired] at hshown
          cases hshown
        · rfl
        · rw [hexpired] at hshown
          cases hshown
      have hruns : (b.drawRow collect includeValues none none d row).run m =
          (.ok { d with rows := d.rows ++ [entry], state := .drawing }, m) := by
        rw [hturn, hshown, hreadable]
        rfl
      rw [bind_ok hruns]
      have hstill : ({ d with rows := d.rows ++ [entry], state := .drawing } : Drawn K V).state = .drawing := rfl
      obtain ⟨later, hrest⟩ := ih hstill
      refine ⟨later, hrest.trans ?_⟩
      cases rows.mapM (b.turn includeValues m.clock) with
      | error e => rfl
      | ok shown =>
        show (Except.ok (⟨d.rows ++ [entry] ++ shown.filterMap id, later, .drawing⟩ : Drawn K V), m) =
          (Except.ok (⟨d.rows ++ (entry :: shown.filterMap id), later, .drawing⟩ : Drawn K V), m)
        rw [List.append_assoc]
        rfl

/-- Drawn up to a limit, it gives the first of what its turns come to. -/
theorem drawRows_limited {n : Nat} (rows : List (SqlKey × SqlDbRow)) (m : Medium SqlKey SqlDbRow) :
    ∀ {d : Drawn K V} {shown : List (Option (K × Option V))}, d.state = .drawing → d.rows.length < n →
      rows.mapM (b.turn includeValues m.clock) = .ok shown → ∃ d',
        (rows.foldlM (b.drawRow collect includeValues (some n) none) d).run m = (.ok d', m) ∧
          d'.rows = d.rows ++ (shown.filterMap id).take (n - d.rows.length) := by
  induction rows with
  | nil =>
    intro d shown hd _ hshown
    have hnone : shown = [] := (Except.ok.inj hshown).symm
    refine ⟨d, rfl, ?_⟩
    rw [hnone, List.filterMap_nil, List.take_nil, List.append_nil]
  | cons row rows ih =>
    intro d shown hd hless hshown
    rw [List.mapM_cons] at hshown
    have hturn : (b.drawRow collect includeValues (some n) none d row).run m = _ := drawRow_run_eq hd row m
    rw [List.foldlM_cons, Script.run_bind]
    rcases hone : b.turn includeValues m.clock row with e | first
    · rw [hone] at hshown
      cases hshown
    · rw [hone] at hshown
      obtain ⟨later, hlater, rfl⟩ : ∃ later, rows.mapM (b.turn includeValues m.clock) = .ok later ∧
          first :: later = shown := by
        cases hrest : rows.mapM (b.turn includeValues m.clock) with
        | error e =>
          rw [hrest] at hshown
          cases hshown
        | ok later =>
          rw [hrest] at hshown
          exact ⟨later, rfl, Except.ok.inj hshown⟩
      obtain ⟨expired, hexpired⟩ : ∃ expired, b.rowExpiredAt row.2 m.clock = .ok expired := by
        unfold turn at hone
        cases hexpired : b.rowExpiredAt row.2 m.clock with
        | error e =>
          rw [hexpired] at hone
          cases hone
        | ok expired => exact ⟨expired, rfl⟩
      rw [hone, hexpired] at hturn
      cases first with
      | none =>
        have hruns : (b.drawRow collect includeValues (some n) none d row).run m =
            (.ok (if (expired && collect) = true then { d with expired := d.expired ++ [row] } else d), m) := hturn
        have hstill : (if (expired && collect) = true then { d with expired := d.expired ++ [row] } else d).state =
            Draw.drawing := by
          split <;> exact hd
        have hrows : (if (expired && collect) = true then { d with expired := d.expired ++ [row] } else d).rows =
            d.rows := by
          split <;> rfl
        obtain ⟨d', hrest, hgiven⟩ := ih hstill (by rw [hrows]; exact hless) hlater
        rw [bind_ok hruns]
        refine ⟨d', hrest, ?_⟩
        rw [hgiven, hrows]
        rfl
      | some entry =>
        have hruns : (b.drawRow collect includeValues (some n) none d row).run m =
            (.ok { d with
              rows := d.rows ++ [entry]
              state := if n ≤ (d.rows ++ [entry]).length then .full else .drawing }, m) := by
          rw [hturn]
          by_cases hfull : n ≤ (d.rows ++ [entry]).length
          · rw [if_pos hfull]
            show (Except.ok (⟨_, _, if decide (n ≤ (d.rows ++ [entry]).length) = true then _ else _⟩ : Drawn K V), m) = _
            rw [decide_eq_true hfull]
            rfl
          · rw [if_neg hfull]
            show (Except.ok (⟨_, _, if decide (n ≤ (d.rows ++ [entry]).length) = true then _ else _⟩ : Drawn K V), m) = _
            rw [decide_eq_false hfull]
            rfl
        have hlength : (d.rows ++ [entry]).length = d.rows.length + 1 := List.length_append
        have hleft : n - d.rows.length = n - (d.rows.length + 1) + 1 := by omega
        rw [bind_ok hruns]
        by_cases hfull : n ≤ (d.rows ++ [entry]).length
        · have hstopped : ({ d with
              rows := d.rows ++ [entry]
              state := if n ≤ (d.rows ++ [entry]).length then .full else .drawing } : Drawn K V).state ≠ .drawing := by
            show (if n ≤ (d.rows ++ [entry]).length then Draw.full else .drawing) ≠ .drawing
            rw [if_pos hfull]
            exact fun h => by cases h
          have hzero : n - (d.rows.length + 1) = 0 := by omega
          rw [drawRows_stopped hstopped]
          refine ⟨_, rfl, ?_⟩
          show d.rows ++ [entry] = d.rows ++ (entry :: later.filterMap id).take (n - d.rows.length)
          rw [hleft, hzero, List.take_succ_cons, List.take_zero]
        · have hstill : ({ d with
              rows := d.rows ++ [entry]
              state := if n ≤ (d.rows ++ [entry]).length then .full else .drawing } : Drawn K V).state = .drawing :=
            if_neg hfull
          obtain ⟨d', hrest, hgiven⟩ := ih hstill (Nat.lt_of_not_le hfull) hlater
          refine ⟨d', hrest, hgiven.trans ?_⟩
          show d.rows ++ [entry] ++ (later.filterMap id).take (n - (d.rows ++ [entry]).length) =
            d.rows ++ (entry :: later.filterMap id).take (n - d.rows.length)
          rw [hleft, hlength, List.take_succ_cons, List.append_assoc]
          rfl

/-! ### The end -/

theorem finishRows_run (d : Drawn K V) (m : Medium SqlKey SqlDbRow) : ((finishRows d).run m).1 = .ok d.rows ∧
    ∀ k, ((finishRows d).run m).2.entries.get? k ≠ m.entries.get? k → ∃ row ∈ d.expired, row.1 = k := by
  unfold finishRows
  split
  · exact ⟨rfl, fun k hk => absurd rfl hk⟩
  · refine ⟨rfl, fun k hk => ?_⟩
    by_contra hnone
    refine hk (SqlRows.deleteByKeys_other m.entries fun hmem => hnone ?_)
    obtain ⟨row, hrow, rfl⟩ := List.mem_map.mp hmem
    exact ⟨row, hrow, rfl⟩

end Drawing

/-! ## Pages -/

section Pages

variable {page : PageScan} {lt : SqlKey → SqlKey → Prop} {selects : SqlKey → Bool}
  (htrans : ∀ j k l, lt j k → lt k l → lt j l) (hirrefl : ∀ k, ¬ lt k k) (hpage : page.Ascends lt selects)

include htrans hirrefl hpage

omit htrans hpage in
theorem nodup_of_ascending {rest : List (SqlKey × SqlDbRow)} (hsorted : rest.Pairwise fun x y => lt x.1 y.1) :
    rest.Nodup := by
  refine List.Pairwise.imp ?_ hsorted
  rintro x y hlt rfl
  exact hirrefl x.1 hlt

/-- The rows after the last one of a page are the ones it left over. -/
theorem rest_after {t : SqlRows} {after : Option SqlKey} {rest : List (SqlKey × SqlDbRow)}
    (hsorted : rest.Pairwise fun x y => lt x.1 y.1)
    (hmem : ∀ row, row ∈ rest ↔ row ∈ t.entries ∧ selects row.1 = true ∧ ∀ k, after = some k → lt k row.1)
    {n : Nat} {last : SqlKey × SqlDbRow} (hlast : (rest.take n).getLast? = some last) :
    (∀ row, row ∈ rest.drop n ↔ row ∈ t.entries ∧ selects row.1 = true ∧ ∀ k, some last.1 = some k → lt k row.1) ∧
      ∀ size, page t (some last.1) size = (rest.drop n).take size := by
  obtain ⟨later, hlater, hlatermem, htake⟩ := hpage t (some last.1)
  have hasymm : ∀ x y : SqlKey × SqlDbRow, lt x.1 y.1 → ¬ lt y.1 x.1 :=
    fun x y h h' => hirrefl x.1 (htrans _ _ _ h h')
  have hlastin := (hmem last).mp (List.mem_of_mem_take (List.mem_of_getLast? hlast))
  have hdrop : later = rest.drop n := by
    refine Paging.after_page hasymm hsorted hlater hlast fun x => ?_
    rw [hlatermem, hmem]
    constructor
    · intro ⟨hx, hselected, hafter⟩
      have hlt := hafter last.1 rfl
      exact ⟨⟨hx, hselected, fun k hk => htrans _ _ _ (hlastin.2.2 k hk) hlt⟩, hlt⟩
    · intro ⟨⟨hx, hselected, _⟩, hlt⟩
      exact ⟨hx, hselected, fun k hk => Option.some.inj hk ▸ hlt⟩
  rw [← hdrop]
  exact ⟨hlatermem, htake⟩

/-- Page by page, a scan does what one pass over all rows does. -/
theorem keysetRowsOver_run {pageSize : Nat} (hsize : 1 ≤ pageSize) (includeValues : Bool) (limit draws : Option Nat)
    (m : Medium SqlKey SqlDbRow) (pages : Nat) : ∀ (after : Option SqlKey) (d : Drawn K V)
      (rest : List (SqlKey × SqlDbRow)), d.state = .drawing → rest.Pairwise (fun x y => lt x.1 y.1) →
      (∀ row, row ∈ rest ↔ row ∈ m.entries.entries ∧ selects row.1 = true ∧ ∀ k, after = some k → lt k row.1) →
      (∀ n, page m.entries after n = rest.take n) → rest.length < pages →
      (b.keysetRowsOver page pageSize includeValues limit draws pages after d).run m =
        (rest.foldlM (b.drawRow b.collects includeValues limit draws) d).run m := by
  induction pages with
  | zero => exact fun after d rest _ _ _ _ hlt => absurd hlt (Nat.not_lt_zero _)
  | succ pages ih =>
    intro after d rest hd hsorted hmem htake hlt
    have hfetch : (Medium.fetch fun t => page t after pageSize : SqlScript (List (SqlKey × SqlDbRow))).run m =
        (.ok (rest.take pageSize), m) := by
      rw [← htake pageSize]
      rfl
    rw [keysetRowsOver, Script.run_bind, bind_ok hfetch]
    cases hlast : (rest.take pageSize).getLast? with
    | none =>
      have hempty : rest = [] := by
        rw [List.getLast?_eq_none_iff, List.take_eq_nil_iff] at hlast
        rcases hlast with hzero | hnil
        · omega
        · exact hnil
      rw [hempty]
      rfl
    | some last =>
      have hall : rest.foldlM (b.drawRow b.collects includeValues limit draws) d = (do
          let d ← (rest.take pageSize).foldlM (b.drawRow b.collects includeValues limit draws) d
          (rest.drop pageSize).foldlM (b.drawRow b.collects includeValues limit draws) d) := by
        rw [← List.foldlM_append, List.take_append_drop]
      have hsame : (((rest.take pageSize).foldlM (b.drawRow b.collects includeValues limit draws) d).run m).2 = m :=
        drawRows_same _ m d
      dsimp only
      rw [hall, Script.run_bind, Script.run_bind]
      rcases hrows : ((rest.take pageSize).foldlM (b.drawRow b.collects includeValues limit draws) d).run m with
        ⟨e | d1, m1⟩
      · rw [bind_error hrows, bind_error hrows]
      · rw [hrows] at hsame
        obtain rfl : m1 = m := hsame
        rw [bind_ok hrows, bind_ok hrows]
        by_cases hd1 : d1.state = .drawing
        · rw [if_neg (not_not.mpr hd1)]
          have hadvances : after ≠ some last.1 := by
            intro hafter
            have hlastin := (hmem last).mp (List.mem_of_mem_take (List.mem_of_getLast? hlast))
            exact hirrefl last.1 (hlastin.2.2 last.1 hafter)
          rw [if_neg hadvances]
          by_cases hshort : (rest.take pageSize).length < pageSize
          · have hnone : rest.drop pageSize = [] := by
              rw [List.length_take] at hshort
              exact List.drop_eq_nil_of_le (by omega)
            rw [if_pos hshort, hnone]
            rfl
          · have hfewer : (rest.drop pageSize).length < pages := by
              rw [List.length_take] at hshort
              rw [List.length_drop]
              omega
            obtain ⟨hlatermem, hlatertake⟩ := rest_after htrans hirrefl hpage hsorted hmem hlast
            rw [if_neg hshort]
            exact ih (some last.1) d1 _ hd1 (hsorted.sublist (List.drop_sublist _ _)) hlatermem hlatertake hfewer
        · rw [if_pos hd1, drawRows_stopped hd1]

omit htrans hpage in
/-- No more rows are selected than there are. -/
theorem few_selected {after : Option SqlKey} {m : Medium SqlKey SqlDbRow} {rest : List (SqlKey × SqlDbRow)}
    (hsorted : rest.Pairwise fun x y => lt x.1 y.1)
    (hmem : ∀ row, row ∈ rest ↔ row ∈ m.entries.entries ∧ selects row.1 = true ∧ ∀ k, after = some k → lt k row.1)
    {pages : Nat} (hpages : m.entries.entries.length < pages) : rest.length < pages := by
  have hnodup : rest.Nodup := nodup_of_ascending hirrefl hsorted
  exact Nat.lt_of_le_of_lt (List.subperm_of_subset hnodup fun row hrow => ((hmem row).mp hrow).1).length_le hpages

/-- Enough pages come to one pass over the rows selected. -/
theorem keysetScanOver_run (includeValues : Bool) (limit : Option Nat) {after : Option SqlKey}
    {m : Medium SqlKey SqlDbRow} {rest : List (SqlKey × SqlDbRow)} (hsorted : rest.Pairwise fun x y => lt x.1 y.1)
    (hmem : ∀ row, row ∈ rest ↔ row ∈ m.entries.entries ∧ selects row.1 = true ∧ ∀ k, after = some k → lt k row.1)
    (htake : ∀ n, page m.entries after n = rest.take n) {pageSize pages : Nat} (hsize : 1 ≤ pageSize)
    (hpages : m.entries.entries.length < pages) :
    (b.keysetScanOver page pageSize includeValues limit pages after).run m =
      (do finishRows (← rest.foldlM (b.drawRow b.collects includeValues limit none) ⟨[], [], .drawing⟩) :
        SqlScript (List (K × Option V))).run m := by
  have hfew := few_selected hirrefl hsorted hmem hpages
  have hrows := keysetRowsOver_run (b := b) htrans hirrefl hpage hsize includeValues limit none m pages after
    ⟨[], [], .drawing⟩ rest rfl hsorted hmem htake hfew
  unfold keysetScanOver
  rw [if_neg (by omega), Script.run_bind, Script.run_bind]
  rcases hdrawn : (rest.foldlM (b.drawRow b.collects includeValues limit none) ⟨[], [], .drawing⟩).run m with
    ⟨e | d, m1⟩
  · rw [hdrawn] at hrows
    rw [bind_error hrows, bind_error hdrawn]
  · rw [hdrawn] at hrows
    rw [bind_ok hrows, bind_ok hdrawn]

end Pages

/-! ## An adapter that does not look at the key -/

section Stuck

variable {page : PageScan} (hignores : ∀ t after after' n, page t after n = page t after' n)

include hignores

theorem keysetRowsOver_stuck {pageSize : Nat} {includeValues : Bool} (m : Medium SqlKey SqlDbRow)
    (pages : Nat) (after : Option SqlKey) {d : Drawn K V} (hd : d.state = .drawing) : ∃ expired,
      (b.keysetRowsOver page pageSize includeValues none none (pages + 2) after d).run m =
        (((page m.entries none pageSize).mapM (b.turn includeValues m.clock)).bind fun shown =>
          if page m.entries none pageSize = [] then .ok d
          else if after ≠ (page m.entries none pageSize).getLast?.map (·.1) ∧
            (page m.entries none pageSize).length < pageSize then
            .ok ⟨d.rows ++ shown.filterMap id, expired, .drawing⟩
          else .error (.kvStoreError (b.adapter.name ++ ".scan_page_by_key_parts returned a page that " ++
            "does not advance after_key; the scan would never terminate")), m) := by
  have hfetch : ∀ after, (Medium.fetch fun t => page t after pageSize :
      SqlScript (List (SqlKey × SqlDbRow))).run m = (.ok (page m.entries none pageSize), m) := by
    intro after
    rw [← hignores m.entries after none pageSize]
    rfl
  generalize hrows : page m.entries none pageSize = rows at hfetch
  obtain ⟨expired, hfirst⟩ := @drawRows_run_eq K V b includeValues b.collects rows m d hd
  refine ⟨expired, ?_⟩
  rw [keysetRowsOver, Script.run_bind, bind_ok (hfetch after)]
  cases hlast : rows.getLast? with
  | none =>
    rw [List.getLast?_eq_none_iff] at hlast
    rw [hlast]
    rfl
  | some last =>
    have hsome : rows ≠ [] := by
      rintro rfl
      cases hlast
    dsimp only
    rw [Script.run_bind]
    cases hshown : rows.mapM (b.turn includeValues m.clock) with
    | error e =>
      rw [hshown] at hfirst
      rw [bind_error hfirst]
      rfl
    | ok shown =>
      rw [hshown] at hfirst
      rw [bind_ok hfirst]
      dsimp only
      rw [if_neg (not_not.mpr rfl)]
      show _ = ((if rows = [] then Except.ok d
        else if after ≠ some last.1 ∧ rows.length < pageSize then
          Except.ok (⟨d.rows ++ shown.filterMap id, expired, .drawing⟩ : Drawn K V)
        else Except.error (Exn.kvStoreError (b.adapter.name ++ ".scan_page_by_key_parts returned a page that " ++
          "does not advance after_key; the scan would never terminate"))), m)
      rw [if_neg hsome]
      by_cases hafter : after = some last.1
      · rw [if_pos hafter, if_neg fun h => h.1 hafter]
        rfl
      · rw [if_neg hafter]
        by_cases hshort : rows.length < pageSize
        · rw [if_pos hshort, if_pos ⟨hafter, hshort⟩]
          rfl
        · rw [if_neg hshort, if_neg fun h => hshort h.2]
          -- the next page is the same one again
          have hstill : (⟨d.rows ++ shown.filterMap id, expired, .drawing⟩ : Drawn K V).state = .drawing := rfl
          obtain ⟨expired', hsecond⟩ := @drawRows_run_eq K V b includeValues b.collects rows m _ hstill
          rw [hshown] at hsecond
          rw [keysetRowsOver, Script.run_bind, bind_ok (hfetch _), hlast]
          dsimp only
          rw [Script.run_bind, bind_ok hsecond, if_neg (not_not.mpr rfl), if_pos rfl]
          rfl

/-- A third page is never asked for. -/
theorem keysetRowsOver_stops {pageSize : Nat} {includeValues : Bool} {limit : Option Nat} (m : Medium SqlKey SqlDbRow)
    (pages : Nat) (after : Option SqlKey) (d : Drawn K V) :
    (b.keysetRowsOver page pageSize includeValues limit none (pages + 2) after d).run m =
      (b.keysetRowsOver page pageSize includeValues limit none 2 after d).run m := by
  have hfetch : ∀ after, (Medium.fetch fun t => page t after pageSize :
      SqlScript (List (SqlKey × SqlDbRow))).run m = (.ok (page m.entries none pageSize), m) := by
    intro after
    rw [← hignores m.entries after none pageSize]
    rfl
  generalize hpage : page m.entries none pageSize = rows at hfetch
  have hsame : ∀ d : Drawn K V,
      ((rows.foldlM (b.drawRow b.collects includeValues limit none) d).run m).2 = m := drawRows_same rows m
  rw [keysetRowsOver, keysetRowsOver, Script.run_bind, Script.run_bind, bind_ok (hfetch after), bind_ok (hfetch after)]
  cases hlast : rows.getLast? with
  | none => rfl
  | some last =>
    dsimp only
    rw [Script.run_bind, Script.run_bind]
    have hstate := hsame d
    rcases hfirst : (rows.foldlM (b.drawRow b.collects includeValues limit none) d).run m with ⟨e | d1, m1⟩
    · rw [bind_error hfirst, bind_error hfirst]
    · rw [hfirst] at hstate
      obtain rfl : m1 = m := hstate
      rw [bind_ok hfirst, bind_ok hfirst]
      split
      · rfl
      · split
        · rfl
        · split
          · rfl
          · rw [keysetRowsOver, keysetRowsOver, Script.run_bind, Script.run_bind, bind_ok (hfetch _),
              bind_ok (hfetch _), hlast]
            dsimp only
            rw [Script.run_bind, Script.run_bind]
            have hstate' := hsame d1
            rcases hsecond : (rows.foldlM (b.drawRow b.collects includeValues limit none) d1).run m1 with
              ⟨e | d2, m2⟩
            · rw [bind_error hsecond, bind_error hsecond]
            · rw [hsecond] at hstate'
              obtain rfl : m2 = m1 := hstate'
              rw [bind_ok hsecond, bind_ok hsecond, if_pos rfl, if_pos rfl]

theorem keysetScanOver_stuck {pageSize : Nat} (hsize : 1 ≤ pageSize) (includeValues : Bool)
    (m : Medium SqlKey SqlDbRow) (pages : Nat) (after : Option SqlKey) :
    ((b.keysetScanOver page pageSize includeValues none (pages + 2) after).run m).1 =
      ((page m.entries none pageSize).mapM (b.turn includeValues m.clock)).bind fun shown =>
        if page m.entries none pageSize = [] ∨ after ≠ (page m.entries none pageSize).getLast?.map (·.1) ∧
          (page m.entries none pageSize).length < pageSize then .ok (shown.filterMap id)
        else .error (.kvStoreError (b.adapter.name ++ ".scan_page_by_key_parts returned a page that " ++
          "does not advance after_key; the scan would never terminate")) := by
  have hstart : (⟨[], [], .drawing⟩ : Drawn K V).state = .drawing := rfl
  obtain ⟨expired, hrun⟩ := @keysetRowsOver_stuck K V b page hignores pageSize includeValues m pages after _ hstart
  unfold keysetScanOver
  rw [if_neg (by omega), Script.run_bind]
  cases hshown : (page m.entries none pageSize).mapM (b.turn includeValues m.clock) with
  | error e =>
    rw [hshown] at hrun
    rw [bind_error hrun]
    rfl
  | ok shown =>
    rw [hshown] at hrun
    show _ = if _ then _ else _
    by_cases hnone : page m.entries none pageSize = []
    · rw [hnone] at hshown
      have hruns : (b.keysetRowsOver page pageSize includeValues none none (pages + 2) after ⟨[], [], .drawing⟩).run m =
          (.ok ⟨[], [], .drawing⟩, m) := by
        rw [hrun]
        show ((if page m.entries none pageSize = [] then _ else _), m) = _
        rw [if_pos hnone]
      have hempty : shown = [] := (Except.ok.inj hshown).symm
      rw [bind_ok hruns, if_pos (.inl hnone), hempty]
      rfl
    · by_cases hshort : after ≠ (page m.entries none pageSize).getLast?.map (·.1) ∧
          (page m.entries none pageSize).length < pageSize
      · have hruns : (b.keysetRowsOver page pageSize includeValues none none (pages + 2) after
            ⟨[], [], .drawing⟩).run m = (.ok ⟨[] ++ shown.filterMap id, expired, .drawing⟩, m) := by
          rw [hrun]
          show ((if page m.entries none pageSize = [] then _ else if _ then _ else _), m) = _
          rw [if_neg hnone, if_pos hshort]
        rw [bind_ok hruns, if_pos (.inr hshort)]
        exact (finishRows_run _ m).1
      · have hruns : (b.keysetRowsOver page pageSize includeValues none none (pages + 2) after
            ⟨[], [], .drawing⟩).run m = (.error (.kvStoreError (b.adapter.name ++
              ".scan_page_by_key_parts returned a page that " ++
              "does not advance after_key; the scan would never terminate")), m) := by
          rw [hrun]
          show ((if page m.entries none pageSize = [] then _ else if _ then _ else _), m) = _
          rw [if_neg hnone, if_neg hshort]
        rw [bind_error hruns, if_neg (not_or.mpr ⟨hnone, hshort⟩)]

end Stuck

/-- The first rows of the table, whatever key they are to come after. -/
def firstRows : PageScan := fun t _ n => t.entries.take n

end SqlDbKvBackend

end Kvtsjl
