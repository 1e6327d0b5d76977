import Kvtsjl.Cursors

/-
  What a limit counts.
  The cascade counts the rows that pass. A leaf that lists what it lists without a limit gives the first of
  the rows it gives without one. A SQL table is told the limit where it lists: its pages end after as many
  rows as may be given, and the database counts rows whose key is not read (`limit_counts_iff`).
-/

namespace Kvtsjl

open Assoc (Dict)
open Effects Prog
open SqlRows (OrderBy)

/-! ## What passes -/

section Passed

variable {S K V : Type} [DecidableEq K] [ScanKey K] {q : CascadeCall K V}

/-- It is given for a row that passes. -/
def CascadeCall.Passed (q : CascadeCall K V) (row : ScanRow K V) : Prop :=
  ∃ full, q.passes full = true ∧ row = projectRow full q.project

/-- A row that passes what is decided without its value. -/
def CascadeCall.PassedBare (q : CascadeCall K V) (k : K) (row : ScanRow K V) : Prop :=
  row.key = k ∧ Predicate.allPass q.keyP row = true ∧ Predicate.allPass q.statP row = true

/-- What was given passed, and what waits may pass. -/
structure Waits.Sound (q : CascadeCall K V) (w : Waits K V) : Prop where
  given : ∀ row ∈ w.out, q.Passed row
  waiting : ∀ k row, w.pendingRows.get? k = some row → q.PassedBare k row

omit [ScanKey K] in
theorem popAll_of (p : K → ScanRow K V → Prop) {keys : List K} :
    ∀ {rows snap snap' rest : Dict K (ScanRow K V)}, popAll keys rows snap = .ok (snap', rest) →
      (∀ k row, rows.get? k = some row → p k row) → (∀ k row, snap.get? k = some row → p k row) →
        (∀ k row, rest.get? k = some row → p k row) ∧ (∀ k row, snap'.get? k = some row → p k row) ∧
          ∀ k, k ∈ keys ∨ (snap.get? k).isSome = true → (snap'.get? k).isSome = true := by
  induction keys with
  | nil =>
    intro rows snap snap' rest hpop hrows hsnap
    obtain ⟨rfl, rfl⟩ := Prod.mk.inj (Except.ok.inj hpop)
    exact ⟨hrows, hsnap, fun k hk => hk.resolve_left List.not_mem_nil⟩
  | cons key keys ih =>
    intro rows snap snap' rest hpop hrows hsnap
    rw [popAll] at hpop
    cases hkey : rows.get? key with
    | none =>
      rw [hkey] at hpop
      cases hpop
    | some row =>
      rw [hkey] at hpop
      obtain ⟨hrest, hsnap', hall⟩ := ih hpop
        (fun k r hr => by
          rw [Dict.get?_erase] at hr
          split at hr
          · cases hr
          · exact hrows k r hr)
        (fun k r hr => by
          rw [Dict.get?_set] at hr
          split at hr
          · next heq =>
            rw [heq, ← Option.some.inj hr]
            exact hrows key row hkey
          · exact hsnap k r hr)
      refine ⟨hrest, hsnap', fun k hk => hall k ?_⟩
      rw [List.mem_cons] at hk
      rw [Dict.get?_set]
      by_cases heq : k = key
      · rw [if_pos heq]
        exact .inr rfl
      · rw [if_neg heq]
        exact hk.imp_left fun h => h.resolve_left heq

omit [DecidableEq K] in
theorem passes_of_bare {k : K} {base : ScanRow K V} (hbase : q.PassedBare k base) {value : V}
    (hvalue : Predicate.allPass q.valueP ⟨k, some value, base.stat⟩ = true)
    (hrefined : q.refined ⟨k, some value, base.stat⟩ = true) : q.passes ⟨k, some value, base.stat⟩ = true := by
  obtain ⟨rfl, hkey, hstat⟩ := hbase
  have hresidual : q.residual.evaluate ⟨base.key, some value, base.stat⟩ = _ := evaluate_withValue q base (some value)
  unfold CascadeCall.passes
  rw [hresidual, hkey, hstat, hvalue, hrefined]
  rfl

theorem giveFound_passed {found : Dict K V} {snap : Dict K (ScanRow K V)}
    (hsnap : ∀ k row, snap.get? k = some row → q.PassedBare k row) {keys : List K}
    (hall : ∀ k ∈ keys, (snap.get? k).isSome = true) :
    ∀ {out : List (ScanRow K V)}, (∀ row ∈ out, q.Passed row) →
      ∀ row ∈ giveFound q found snap keys out, q.Passed row := by
  induction keys with
  | nil => exact fun hout => hout
  | cons key keys ih =>
    intro out hout
    have hlater := @ih fun k hk => hall k (List.mem_cons_of_mem _ hk)
    rw [giveFound]
    cases found.get? key with
    | none => exact hlater hout
    | some value =>
      obtain ⟨base, hbase⟩ := Option.isSome_iff_exists.mp (hall key List.mem_cons_self)
      dsimp only
      rw [hbase, Option.bind_some]
      split
      · exact hlater hout
      · next hvalue =>
        split
        · exact hlater hout
        · next hrefined =>
          rw [Bool.not_eq_true', Bool.not_eq_false] at hvalue hrefined
          have hmore : ∀ row ∈ out ++ [projectRow ⟨key, some value, base.stat⟩ q.project], q.Passed row := by
            intro row hrow
            rcases List.mem_append.mp hrow with hrow | hrow
            · exact hout row hrow
            · exact ⟨_, passes_of_bare (hsnap key base hbase) hvalue hrefined, List.mem_singleton.mp hrow⟩
          split
          · exact hmore
          · exact hlater hmore

theorem flush_sound (get : List K → M S (Dict K V)) {w : Waits K V} (h : w.Sound q) :
    Gives (fun w' => w'.Sound q) (flush q get w) := by
  unfold flush
  split
  · exact Gives.pure h
  · refine (Gives.ofExcept (p := fun r => (∀ k row, r.2.get? k = some row → q.PassedBare k row) ∧
      (∀ k row, r.1.get? k = some row → q.PassedBare k row) ∧ ∀ k ∈ w.pendingKeys, (r.1.get? k).isSome = true)
        fun r hr => ?_).bind fun r hr => (Gives.trivial _).bind fun found _ => Gives.pure ?_
    · obtain ⟨hrest, hsnap, hall⟩ := popAll_of q.PassedBare hr h.waiting fun k row hnone => by cases hnone
      exact ⟨hrest, hsnap, fun k hk => hall k (.inl hk)⟩
    · exact ⟨giveFound_passed hr.2.1 hr.2.2 h.given, hr.1⟩

theorem flushFirst_sound (batchGet : Option (List K → M S (Dict K V))) {w : Waits K V} (h : w.Sound q) :
    Gives (fun w' => w'.Sound q) (flushFirst q batchGet w) := by
  unfold flushFirst
  split
  · exact Gives.pure h
  · split
    · exact Gives.pure h
    · exact flush_sound _ h

theorem giveRow_sound {row : ScanRow K V} (hkey : Predicate.allPass q.keyP row = true)
    (hstat : Predicate.allPass q.statP row = true) {w : Waits K V} (h : w.Sound q) : (giveRow q row w).Sound q := by
  unfold giveRow
  split
  · exact h
  · split
    · exact h
    · next hvalue =>
      split
      · exact h
      · next hrefined =>
        rw [Bool.not_eq_true', Bool.not_eq_false] at hvalue hrefined
        refine ⟨fun out hout => ?_, h.waiting⟩
        rcases List.mem_append.mp hout with hout | hout
        · exact h.given out hout
        · refine ⟨row, ?_, List.mem_singleton.mp hout⟩
          unfold CascadeCall.passes
          rw [Predicate.evaluate_partitionByNeeds]
          show (Predicate.allPass q.keyP row && Predicate.allPass q.statP row && Predicate.allPass q.valueP row && _) = true
          rw [hkey, hstat, hvalue, hrefined]
          rfl

theorem cascadeRow_sound (batchGet : Option (List K → M S (Dict K V))) {w : Waits K V} (h : w.Sound q)
    (row : ScanRow K V) : Gives (fun w' => w'.Sound q) (cascadeRow q batchGet w row) := by
  unfold cascadeRow
  split
  · exact Gives.pure h
  · split
    · exact Gives.pure h
    · next hkey =>
      split
      · exact Gives.pure h
      · next hstat =>
        rw [Bool.not_eq_true', Bool.not_eq_false] at hkey hstat
        split
        · unfold await
          split
          · exact Gives.raise _
          · have hwaits : Waits.Sound q ⟨w.out, w.pendingKeys ++ [row.key], w.pendingRows.set row.key row⟩ := by
              refine ⟨h.given, fun k r hr => ?_⟩
              rw [Dict.get?_set] at hr
              split at hr
              · next heq =>
                rw [← Option.some.inj hr]
                exact ⟨heq.symm, hkey, hstat⟩
              · exact h.waiting k r hr
            dsimp only
            split
            · exact flush_sound _ hwaits
            · exact Gives.pure hwaits
        · exact (flushFirst_sound batchGet h).bind fun w' hw' => Gives.pure (giveRow_sound hkey hstat hw')

/-- Whatever the store answers, what the cascade gives has passed. -/
theorem applyCascade_passed (batchGet : Option (List K → M S (Dict K V))) (rows : List (ScanRow K V)) :
    Gives (fun out => ∀ row ∈ out, q.Passed row) (applyCascade q batchGet rows) := by
  have hstart : Waits.Sound q ⟨[], [], .empty⟩ :=
    ⟨fun row hrow => absurd hrow List.not_mem_nil, fun k row hrow => by cases hrow⟩
  have hrows := @Gives.foldlM _ _ _ _ (fun _ w => Waits.Sound q w) (cascadeRow q batchGet)
    (fun _ w row hw => cascadeRow_sound batchGet hw row) rows [] _ hstart
  refine hrows.bind fun w hw => ?_
  unfold finish
  split
  · exact Gives.pure hw.given
  · exact (flushFirst_sound batchGet hw).bind fun w' hw' => Gives.pure hw'.given

end Passed

/-! ## A leaf, with a limit and without -/

namespace ScanSpec

variable {K V : Type}

/-- The same scan, without a limit. -/
def unlimited (spec : ScanSpec K V) : ScanSpec K V := { spec with limit := none, one_order := spec.one_order }

/-- The limit is left to the database: there is nothing else to filter by. -/
def pushesLimit (spec : ScanSpec K V) : Bool := spec.where_.peelKeyPrefix.2.isAlwaysTrue && spec.refine.isNone

end ScanSpec

section Leaf

variable {S K V : Type} [DecidableEq K] [ScanKey K] {l : LeafKvStore S K V} {spec : ScanSpec K V} {s : S}

omit [DecidableEq K] [ScanKey K] in
theorem enforceStrict_residual {backend : String} {rows : M S (List (ScanRow K V))} {compiled : CompiledScan S K V}
    (h : (enforceStrict spec spec.where_.peelKeyPrefix.2 backend >>= fun _ =>
      pure (⟨rows, spec.where_.peelKeyPrefix.2⟩ : CompiledScan S K V)) = .ok compiled) :
    compiled.residual = spec.where_.peelKeyPrefix.2 := by
  rw [enforceStrict_then h]

omit [DecidableEq K] in
/-- The listing takes the prefix, and leaves the rest. -/
theorem compileScan_residual {listing : Listing S K V} {compiled : CompiledScan S K V}
    (h : listing.compileScan spec = .ok compiled) : compiled.residual = spec.where_.peelKeyPrefix.2 := by
  cases listing with
  | legacy backend scanEntries => exact enforceStrict_residual h
  | object b =>
    have hobject : b.compileScan spec = .ok compiled := h
    unfold ObjectListing.compileScan at hobject
    split at hobject
    · cases hobject
    · exact enforceStrict_residual hobject
  | sql b =>
    have hsql : b.compileScan spec = .ok compiled := h
    unfold SqlListing.compileScan at hsql
    split at hsql
    · split at hsql
      · split at hsql
        · cases hsql
        · unfold SqlListing.compileKeysetScan at hsql
          cases hafter : spec.cursor.mapM b.afterKeyFromCursor with
          | error e =>
            rw [hafter] at hsql
            cases hsql
          | ok after =>
            rw [hafter] at hsql
            exact enforceStrict_residual hsql
      · exact enforceStrict_residual hsql
    · split at hsql
      · cases hsql
      · cases hresolved : b.resolveOrderBy spec.orderBy with
        | error e =>
          rw [hresolved] at hsql
          cases hsql
        | ok orderBy =>
          rw [hresolved] at hsql
          exact enforceStrict_residual hsql

/-- A scan that comes to an end has been compiled, and its rows went through the cascade. -/
theorem scanRows_eq_ok {all : List (ScanRow K V)} (h : (l.scanRows spec s).1 = .ok all) :
    enforceOrderBySupported spec l.orderableColumns l.backend = .ok () ∧ ∃ compiled rows s₁ s₂,
      l.listing.compileScan spec = .ok compiled ∧ compiled.rows s = (.ok rows, s₁) ∧
        applyCascade spec.asked (some l.batchGet) rows s₁ = (.ok all, s₂) := by
  unfold LeafKvStore.scanRows at h
  cases henforced : enforceOrderBySupported spec l.orderableColumns l.backend with
  | error e =>
    rw [henforced] at h
    cases h
  | ok u =>
    rw [henforced] at h
    cases hcompiled : l.listing.compileScan spec with
    | error e =>
      rw [hcompiled] at h
      cases h
    | ok compiled =>
      rw [hcompiled] at h
      change ((compiled.rows >>= fun rows =>
        applyCascade (spec.call compiled.residual) (some l.batchGet) rows) s).1 = _ at h
      obtain ⟨rows, s₁, hrows, hrest⟩ := bind_eq_ok (Prod.ext h rfl)
      rw [compileScan_residual hcompiled] at hrest
      exact ⟨rfl, compiled, rows, s₁, _, rfl, hrows, hrest⟩

/-- What a leaf gives has passed. -/
theorem scanRows_passed {all : List (ScanRow K V)} (h : (l.scanRows spec s).1 = .ok all) :
    ∀ row ∈ all, spec.asked.Passed row := by
  obtain ⟨-, compiled, rows, s₁, s₂, -, -, hcascade⟩ := scanRows_eq_ok h
  exact applyCascade_passed _ rows s₁ all s₂ hcascade

/-- Where the listing is compiled as without a limit, the scan gives the first of the rows. -/
theorem scanRows_limit (hcompile : l.listing.compileScan spec.unlimited = l.listing.compileScan spec)
    {all : List (ScanRow K V)} (h : (l.scanRows spec.unlimited s).1 = .ok all) :
    (l.scanRows spec s).1 = .ok (cutAt spec.limit all) := by
  obtain ⟨henforced, compiled, rows, s₁, s₂, hcompiled, hrows, hcascade⟩ := scanRows_eq_ok h
  have hsame : enforceOrderBySupported spec l.orderableColumns l.backend = .ok () := henforced
  rw [hcompile] at hcompiled
  unfold LeafKvStore.scanRows
  rw [hsame, hcompiled]
  show ((compiled.rows >>= _) s).1 = _
  rw [bind_ok hrows, compileScan_residual hcompiled]
  exact @applyCascade_limit _ _ _ _ _ spec.asked _ _ _ _ _ hcascade

theorem memoryScan_limit {α VB : Type} [DecidableEq α] (b : MemoryKvBackend K V α VB) {r : MemoryRoot α VB}
    {all : List (ScanRow K V)} (h : (b.leafStore.scanRows spec.unlimited r).1 = .ok all) :
    (b.leafStore.scanRows spec r).1 = .ok (cutAt spec.limit all) :=
  scanRows_limit rfl h

theorem objectScan_limit (o : ObjectStoreKvBackend K V) (pages : Nat) {m : Medium String Blob}
    {all : List (ScanRow K V)} (h : ((o.leafStore pages).scanRows spec.unlimited m).1 = .ok all) :
    ((o.leafStore pages).scanRows spec m).1 = .ok (cutAt spec.limit all) :=
  scanRows_limit rfl h

end Leaf

/-! ## A table in pages -/

section Pages

variable {K V : Type} [ScanKey K] {q : CascadeCall K V} {content : K → Option V}

omit [ScanKey K] in
/-- A page of the first rows is the beginning of a page of all rows. -/
theorem pagesOf_append {rows : List (ScanRow K V)} (more : List (ScanRow K V)) :
    ∀ {start page : List (ScanRow K V)}, page ∈ pagesOf q start rows →
      ∃ whole ∈ pagesOf q start (rows ++ more), page <+: whole := by
  induction rows with
  | nil =>
    intro start page hpage
    obtain rfl := List.mem_singleton.mp hpage
    clear hpage
    rw [List.nil_append]
    induction more generalizing page with
    | nil => exact ⟨page, List.mem_singleton_self _, List.prefix_rfl⟩
    | cons row more ih =>
      unfold pagesOf
      split
      · split
        · exact ⟨_, List.mem_cons_self, List.prefix_append _ _⟩
        · obtain ⟨whole, hwhole, hbegins⟩ := @ih (page ++ [row])
          exact ⟨whole, hwhole, (List.prefix_append _ _).trans hbegins⟩
      · exact ⟨page, List.mem_cons_self, List.prefix_rfl⟩
  | cons row rows ih =>
    intro start page hpage
    rw [List.cons_append]
    unfold pagesOf at hpage ⊢
    split at hpage
    · next hwaits =>
      rw [if_pos hwaits]
      split at hpage
      · next hlong =>
        rw [if_pos hlong]
        rcases List.mem_cons.mp hpage with rfl | hpage
        · exact ⟨_, List.mem_cons_self, List.prefix_rfl⟩
        · obtain ⟨whole, hwhole, hbegins⟩ := ih hpage
          exact ⟨whole, List.mem_cons_of_mem _ hwhole, hbegins⟩
      · next hshort =>
        rw [if_neg hshort]
        exact ih hpage
    · next hready =>
      rw [if_neg hready]
      rcases List.mem_cons.mp hpage with rfl | hpage
      · exact ⟨page, List.mem_cons_self, List.prefix_rfl⟩
      · rcases List.mem_cons.mp hpage with rfl | hpage
        · exact ⟨_, List.mem_cons_of_mem _ List.mem_cons_self, List.prefix_rfl⟩
        · obtain ⟨whole, hwhole, hbegins⟩ := ih hpage
          exact ⟨whole, List.mem_cons_of_mem _ (List.mem_cons_of_mem _ hwhole), hbegins⟩

omit [ScanKey K] in
theorem pagesOf_unlimited (rows : List (ScanRow K V)) :
    ∀ start : List (ScanRow K V), pagesOf q.unlimited start rows = pagesOf q start rows := by
  have hwaits : q.unlimited.waits = q.waits := rfl
  induction rows with
  | nil => exact fun start => rfl
  | cons row rows ih =>
    intro start
    unfold pagesOf
    rw [hwaits, ih, ih]

/-- Where no page of all rows has a key twice, no page of the first rows has. -/
theorem noneTwice_of_append {rows more : List (ScanRow K V)}
    (h : NoneTwice q.unlimited content [] (pagesOf q.unlimited [] (considered q.unlimited (rows ++ more)))) :
    NoneTwice q content [] (pagesOf q [] (considered q rows)) := by
  have hconsidered : considered q.unlimited = considered q := rfl
  rw [pagesOf_unlimited, hconsidered] at h
  refine noneTwice_of_nodup fun page hpage => ?_
  have hsplit : considered q (rows ++ more) = considered q rows ++ considered q more := List.filter_append _ _
  rw [hsplit] at h
  obtain ⟨whole, hwhole, hbegins⟩ := pagesOf_append (considered q more) hpage
  obtain ⟨before, after, hpages⟩ := List.append_of_mem hwhole
  exact (h before whole after hpages rfl).sublist (hbegins.sublist.map _)

end Pages

namespace SqlDbKvBackend

variable {K V : Type} [DecidableEq K] [ScanKey K] {b : SqlDbKvBackend K V} {m : Medium SqlKey SqlDbRow}
  {spec : ScanSpec K V} {place : K → SqlKey} {pages : Nat}

omit [DecidableEq K] [ScanKey K] in
theorem keysetRows_size {userPrefix : Option K} {after : Option SqlKey} {pageSize : Nat} {includeValues : Bool}
    {rows : List (ScanRow K V)} {s : Medium SqlKey SqlDbRow}
    (h : (b.listing pages).keysetRows userPrefix after pageSize includeValues m = (.ok rows, s)) : 1 ≤ pageSize := by
  by_contra hsize
  have hbelow : (wholeScan ⟨userPrefix, includeValues, pageSize⟩ : SqlScan K).pageSize < 1 := by
    show pageSize < 1
    omega
  have hraises : (b.listing pages).keysetRows userPrefix after pageSize includeValues m =
      (.error (.valueError ("page_size must be >= 1, got " ++ toString pageSize)), m) := by
    show (Script.run (do finishRows (← b.iterKeysetRows (wholeScan ⟨userPrefix, includeValues, pageSize⟩) after
      none pages) : SqlScript (List (K × Option V))) >>= _) m = _
    unfold iterKeysetRows
    rw [if_pos hbelow]
    rfl
  rw [hraises] at h
  cases h

/-- The pages of a table, and what is left for the cascade. -/
theorem compileScan_keyset (hpaged : b.adapter.supportsPagedScan = true) (horder : spec.orderBy = [])
    {compiled : CompiledScan (Medium SqlKey SqlDbRow) K V}
    (h : (b.leafStore pages).listing.compileScan spec.unlimited = .ok compiled) :
    ∃ after, spec.cursor.mapM b.afterKeyFromCursor = .ok after ∧
      compiled.rows = (b.listing pages).keysetRows spec.where_.peelKeyPrefix.1 after spec.pageSize
        (spec.project = .entries) ∧
      (b.leafStore pages).listing.compileScan spec = .ok
        ⟨compiled.rows >>= fun rows => pure (SqlListing.drawn spec.limit rows), spec.where_.peelKeyPrefix.2⟩ := by
  have hunordered : spec.unlimited.orderBy = [] := horder
  rw [leafStore_compileScan pages hpaged hunordered] at h
  rw [leafStore_compileScan pages hpaged horder]
  by_cases hliteral : b.keyLayout = .literal
  · rw [if_neg (not_not.mpr hliteral)] at h ⊢
    unfold SqlListing.compileKeysetScan at h ⊢
    change (spec.cursor.mapM b.afterKeyFromCursor >>= fun after =>
      enforceStrict spec.unlimited spec.where_.peelKeyPrefix.2 "SqlDbKvBackend" >>= fun _ => Except.ok
        (⟨(b.listing pages).keysetRows spec.where_.peelKeyPrefix.1 after spec.pageSize (spec.project = .entries) >>=
          fun rows => pure rows, spec.where_.peelKeyPrefix.2⟩ : CompiledScan (Medium SqlKey SqlDbRow) K V)) =
            .ok compiled at h
    show ∃ after, _ ∧ _ ∧ (spec.cursor.mapM b.afterKeyFromCursor >>= _) = _
    cases hafter : spec.cursor.mapM b.afterKeyFromCursor with
    | error e =>
      rw [hafter] at h
      cases h
    | ok after =>
      rw [hafter] at h
      refine ⟨after, rfl, ?_⟩
      have hstrict : enforceStrict spec spec.where_.peelKeyPrefix.2 "SqlDbKvBackend" = .ok () := enforceStrict_ok h
      have hcompiled := enforceStrict_then h
      have hrows : compiled.rows = (b.listing pages).keysetRows spec.where_.peelKeyPrefix.1 after spec.pageSize
          (spec.project = .entries) := by
        rw [hcompiled]
        exact bind_pure _
      refine ⟨hrows, ?_⟩
      rw [hrows]
      show (enforceStrict spec spec.where_.peelKeyPrefix.2 "SqlDbKvBackend" >>= _) = _
      rw [hstrict]
      rfl
  · rw [if_pos hliteral] at h
    cases h

omit [DecidableEq K] [ScanKey K] in
/-- The rows within the limit are the first of those shown. -/
theorem within_append (b : SqlDbKvBackend K V) (spec : ScanSpec K V) (m : Medium SqlKey SqlDbRow)
    (after : Option SqlKey) : ∃ more, b.shownAfter spec.where_.peelKeyPrefix.1 m after = b.within spec m after ++ more := by
  unfold within
  split
  · exact ⟨[], (List.append_nil _).symm⟩
  · exact ⟨_, (List.take_append_drop _ _).symm⟩

omit [DecidableEq K] in
/-- What the pages give up to the limit is the first of what passes, where the limit spares what passes. -/
theorem given_limit_iff (spec : ScanSpec K V) (place : K → SqlKey) (after : Option SqlKey) :
    b.given spec place m after =
        cutAt spec.limit ((b.shownAfter spec.where_.peelKeyPrefix.1 m after).filterMap (b.judged spec place m)) ↔
      ∀ limit, spec.limit = some limit → 1 ≤ limit →
        Paging.CutSpares (fun row => (b.judged spec place m row).isSome) limit.toNat
          (b.shownAfter spec.where_.peelKeyPrefix.1 m after) := by
  have hgiven : b.given spec place m after =
      cutAt spec.limit ((b.within spec m after).filterMap (b.judged spec place m)) := rfl
  rw [hgiven]
  unfold within
  cases hlimit : spec.limit with
  | none => exact iff_of_true rfl fun limit hnone => by cases hnone
  | some limit =>
    show List.take limit.toNat _ = List.take limit.toNat _ ↔ _
    dsimp only
    by_cases hpositive : 1 ≤ limit
    · have hfew : (((b.shownAfter spec.where_.peelKeyPrefix.1 m after).take limit.toNat).filterMap
          (b.judged spec place m)).length ≤ limit.toNat :=
        Nat.le_trans (List.length_filterMap_le _ _) (List.length_take_le _ _)
      rw [Nat.max_eq_left (by omega), List.take_of_length_le hfew, eq_comm, Paging.filterMap_take_iff]
      constructor
      · intro hspares limit' hlimit' _
        rw [← Option.some.inj hlimit']
        exact hspares
      · exact fun hspares => hspares limit rfl hpositive
    · have hzero : limit.toNat = 0 := by omega
      rw [hzero, List.take_zero, List.take_zero]
      refine iff_of_true rfl fun limit' hlimit' hpos => ?_
      rw [← Option.some.inj hlimit'] at hpos
      exact absurd hpos hpositive

/-- Of a table in pages, the limit counts the rows that come, not those that pass. -/
theorem keysetScan_limit_iff (hread : b.Readable m) (hplace : ∀ key, b.fullKeyRow key = .ok (place key))
    (hbatch : 1 ≤ b.batchSize) (hpages : m.entries.entries.length < pages)
    (hpaged : b.adapter.supportsPagedScan = true) (horder : spec.orderBy = []) {all : List (ScanRow K V)}
    (h : ((b.leafStore pages).scanRows spec.unlimited m).1 = .ok all) :
    ∃ after, spec.cursor.mapM b.afterKeyFromCursor = .ok after ∧
      (((b.leafStore pages).scanRows spec m).1 = .ok (cutAt spec.limit all) ↔
        ∀ limit, spec.limit = some limit → 1 ≤ limit →
          Paging.CutSpares (fun row => (b.judged spec place m row).isSome) limit.toNat
            (b.shownAfter spec.where_.peelKeyPrefix.1 m after)) := by
  obtain ⟨henforced, compiled, rows, s₁, s₂, hcompiled, hrows, hcascade⟩ := scanRows_eq_ok h
  obtain ⟨after, hafter, hpagesOf, hlimited⟩ := compileScan_keyset hpaged horder hcompiled
  refine ⟨after, hafter, ?_⟩
  rw [hpagesOf] at hrows
  obtain ⟨s, hlisted, hs⟩ := keysetRows_listed hread spec.where_.peelKeyPrefix.1 after (keysetRows_size hrows)
    (spec.project = .entries) hpages
  rw [hlisted] at hrows
  obtain ⟨hrowsEq, rfl⟩ := Prod.mk.inj hrows
  rw [← Except.ok.inj hrowsEq] at hcascade
  have hsteady := batchGet_steady hread hplace hbatch
  have hcascade' := congrArg Prod.fst hcascade
  have honce : NoneTwice spec.unlimited.asked (b.content place m) [] (pagesOf spec.unlimited.asked []
      (considered spec.unlimited.asked ((b.shownAfter spec.where_.peelKeyPrefix.1 m after).filterMap
        (b.listedRow (spec.project = .entries) m.clock)))) := by
    by_contra htwice
    cases (cascade_raises _ _ hsteady _ hs htwice).symm.trans hcascade'
  have hall : all = (b.shownAfter spec.where_.peelKeyPrefix.1 m after).filterMap (b.judged spec place m) := by
    rw [Except.ok.inj (hcascade'.symm.trans (cascade_gives _ _ hsteady _ hs honce))]
    exact List.filterMap_filterMap
  have hwithin : NoneTwice spec.asked (b.content place m) [] (pagesOf spec.asked [] (considered spec.asked
      ((b.within spec m after).filterMap (b.listedRow (spec.project = .entries) m.clock)))) := by
    obtain ⟨more, hmore⟩ := within_append b spec m after
    rw [hmore, List.filterMap_append] at honce
    exact @noneTwice_of_append _ _ _ spec.asked _ _ _ honce
  have hcut := cascade_gives spec.asked (b.content place m) hsteady _ hs hwithin
  rw [List.filterMap_filterMap] at hcut
  have hrun : ((b.leafStore pages).scanRows spec m).1 = .ok (b.given spec place m after) := by
    have hsame : enforceOrderBySupported spec (b.leafStore pages).orderableColumns (b.leafStore pages).backend =
        .ok () := henforced
    have hdrawn : (compiled.rows >>= fun rows => pure (SqlListing.drawn spec.limit rows)) m =
        (.ok ((b.within spec m after).filterMap (b.listedRow (spec.project = .entries) m.clock)), s) := by
      rw [hpagesOf, bind_ok hlisted, drawn_listed]
      rfl
    unfold LeafKvStore.scanRows
    rw [hsame, hlimited]
    show (((compiled.rows >>= fun rows => pure (SqlListing.drawn spec.limit rows)) >>= fun rows =>
      applyCascade spec.asked (some (b.leafStore pages).batchGet) rows) m).1 = _
    rw [bind_ok hdrawn]
    exact hcut
  rw [hrun, hall, Except.ok.injEq]
  exact given_limit_iff spec place after

/-! ## A table that the database orders -/

/-- The rows the database orders. -/
def orderedLive (b : SqlDbKvBackend K V) (userPrefix : Option K) (orderBy : List OrderBy) (m : Medium SqlKey SqlDbRow) :
    List (SqlKey × SqlDbRow) :=
  SqlRows.scanOrdered m.entries b.sqlKvset b.scopeCells (b.leafPrefixMap userPrefix) orderBy none
    ⟨m.clock, b.ttlSeconds.map (· * 1000000), b.heldBy⟩

/-- What the database leaves of what it orders. To it a negative limit is none. -/
def toldLimit {X : Type} (limit : Option Int) (rows : List X) : List X :=
  match limit.bind fun n => if n < 0 then none else some n.toNat with
  | some n => rows.take n
  | none => rows

/-- What a row comes to that the database ordered. -/
def orderedTurn (b : SqlDbKvBackend K V) (includeValues : Bool) (now : Instant) (row : SqlKey × SqlDbRow) :
    Except Exn (Option (ScanRow K V)) := do
  if ← b.rowExpiredAt row.2 now then return none
  else if !b.holds row.2 then return none
  else
    match b.decodeLeafKey row.1 with
    | none => return none
    | some key => do
      let value ← (if includeValues then (b.readRow row).map some else .ok none : Except Exn (Option V))
      let record ← b.statFromRow row.2
      return some ⟨key, value, some ⟨none, record.modifiedAt, record.expiresAt, none⟩⟩

omit [DecidableEq K] [ScanKey K] in
theorem orderedRow_run (includeValues : Bool) (rows : List (ScanRow K V)) (row : SqlKey × SqlDbRow)
    (m : Medium SqlKey SqlDbRow) : (b.orderedRow includeValues rows row).run m =
      ((b.orderedTurn includeValues m.clock row).map fun shown => rows ++ shown.toList, m) := by
  have htime : (b.rowExpired row.2).run m = (b.rowExpiredAt row.2 m.clock, m) := rfl
  have hskip : (Except.ok rows, m) = (Except.map (fun shown => rows ++ shown.toList)
      (Except.ok none : Except Exn (Option (ScanRow K V))), m) := by
    show (Except.ok rows, m) = (Except.ok (rows ++ []), m)
    rw [List.append_nil]
  unfold orderedRow orderedTurn
  rw [Script.run_bind, bind_apply, htime]
  cases b.rowExpiredAt row.2 m.clock with
  | error e => rfl
  | ok expired =>
    cases expired with
    | true => exact hskip
    | false =>
      cases hholds : b.holds row.2 with
      | false => exact hskip
      | true =>
        cases b.decodeLeafKey row.1 with
        | none => exact hskip
        | some key =>
          show (Script.run (Script.done (if includeValues then (b.readRow row).map some else .ok none) >>= fun value =>
            Script.done (b.statFromRow row.2) >>= fun record => pure (rows ++
              [(⟨key, value, some ⟨none, record.modifiedAt, record.expiresAt, none⟩⟩ : ScanRow K V)])) m) =
            (Except.map (fun shown => rows ++ shown.toList)
              ((if includeValues then (b.readRow row).map some else .ok none) >>= fun value =>
                b.statFromRow row.2 >>= fun record =>
                  pure (some (⟨key, value, some ⟨none, record.modifiedAt, record.expiresAt, none⟩⟩ : ScanRow K V))), m)
          cases (if includeValues then (b.readRow row).map some else .ok none : Except Exn (Option V)) with
          | error e => rfl
          | ok value => cases b.statFromRow row.2 <;> rfl

omit [DecidableEq K] [ScanKey K] in
theorem foldlM_orderedRow (includeValues : Bool) (m : Medium SqlKey SqlDbRow) (ordered : List (SqlKey × SqlDbRow)) :
    ∀ rows : List (ScanRow K V), (ordered.foldlM (b.orderedRow includeValues) rows).run m =
      ((ordered.mapM (b.orderedTurn includeValues m.clock)).map fun shown => rows ++ shown.filterMap id, m) := by
  induction ordered with
  | nil =>
    intro rows
    show (Except.ok rows, m) = (Except.ok (rows ++ []), m)
    rw [List.append_nil]
  | cons row ordered ih =>
    intro rows
    rw [List.foldlM_cons, Script.run_bind, bind_apply, orderedRow_run, List.mapM_cons]
    cases b.orderedTurn includeValues m.clock row with
    | error e => rfl
    | ok shown =>
      show (ordered.foldlM (b.orderedRow includeValues) (rows ++ shown.toList)).run m = _
      rw [ih]
      cases ordered.mapM (b.orderedTurn includeValues m.clock) with
      | error e => rfl
      | ok later =>
        show (Except.ok (rows ++ shown.toList ++ later.filterMap id), m) =
          (Except.ok (rows ++ (shown :: later).filterMap id), m)
        rw [List.append_assoc]
        cases shown <;> rfl

omit [DecidableEq K] [ScanKey K] in
/-- The database cuts what it orders at a limit that is not negative. -/
theorem orderedRows_run (userPrefix : Option K) (orderBy : List OrderBy) (limit : Option Int) (includeValues : Bool)
    (m : Medium SqlKey SqlDbRow) : (b.orderedRows userPrefix orderBy limit includeValues).run m =
      (((toldLimit limit (b.orderedLive userPrefix orderBy m)).mapM
        (b.orderedTurn includeValues m.clock)).map (List.filterMap id), m) := by
  have hrun := foldlM_orderedRow (b := b) includeValues m
    (SqlRows.scanOrdered m.entries b.sqlKvset b.scopeCells (b.leafPrefixMap userPrefix) orderBy
      (limit.bind fun n => if n < 0 then none else some n.toNat) ⟨m.clock, b.ttlSeconds.map (· * 1000000), b.heldBy⟩) []
  have hscope : (Script.done (b.scopeKeyRow false) : SqlScript _).run m = (.ok b.scopeCells, m) := by
    rw [scopeKeyRow_false]
    rfl
  have htime : (Medium.time : SqlScript Int).run m = (.ok m.clock, m) := rfl
  unfold orderedRows
  rw [Script.run_bind, bind_ok htime, Script.run_bind, bind_ok hscope]
  exact hrun

/-- The row that a row the database ordered is given as. -/
def orderedShown (b : SqlDbKvBackend K V) (includeValues : Bool) (now : Instant) (row : SqlKey × SqlDbRow) :
    Option (ScanRow K V) :=
  (b.orderedTurn includeValues now row).toOption.join

omit [DecidableEq K] [ScanKey K] in
/-- A row that can be read is given if it is live, and its key is read. -/
theorem isSome_orderedShown {includeValues : Bool} {now : Instant} {row : SqlKey × SqlDbRow}
    {shown : Option (ScanRow K V)} (h : b.orderedTurn includeValues now row = .ok shown) :
    (b.orderedShown includeValues now row).isSome = (b.shownRow now row).isSome := by
  have hshown : b.orderedShown includeValues now row = shown := by
    unfold orderedShown
    rw [h]
    rfl
  rw [hshown]
  unfold orderedTurn at h
  unfold shownRow isLive
  cases hexpired : b.rowExpiredAt row.2 now with
  | error e =>
    rw [hexpired] at h
    cases h
  | ok expired =>
    rw [hexpired] at h
    cases expired with
    | true =>
      cases h
      rfl
    | false =>
      cases hholds : b.holds row.2 with
      | false =>
        rw [hholds] at h
        cases h
        rfl
      | true =>
        rw [hholds] at h
        show _ = (b.decodeLeafKey row.1).isSome
        cases hkey : b.decodeLeafKey row.1 with
        | none =>
          rw [hkey] at h
          cases h
          rfl
        | some key =>
          rw [hkey] at h
          change ((if includeValues then (b.readRow row).map some else .ok none : Except Exn (Option V)) >>= fun value =>
            b.statFromRow row.2 >>= fun record =>
              pure (some (⟨key, value, some ⟨none, record.modifiedAt, record.expiresAt, none⟩⟩ : ScanRow K V))) = _ at h
          cases hvalue : (if includeValues then (b.readRow row).map some else .ok none : Except Exn (Option V)) with
          | error e =>
            rw [hvalue] at h
            cases h
          | ok value =>
            cases hrecord : b.statFromRow row.2 with
            | error e =>
              rw [hvalue, hrecord] at h
              cases h
            | ok record =>
              rw [hvalue, hrecord] at h
              cases h
              rfl

omit [DecidableEq K] [ScanKey K] in
theorem mapM_orderedTurn {includeValues : Bool} {now : Instant} {ordered : List (SqlKey × SqlDbRow)}
    {shown : List (Option (ScanRow K V))} (h : ordered.mapM (b.orderedTurn includeValues now) = .ok shown) :
    ∀ row ∈ ordered, b.orderedTurn includeValues now row = .ok (b.orderedShown includeValues now row) := by
  have hall := forall₂_of_mapM h
  clear h
  induction hall with
  | nil => exact fun row hrow => absurd hrow List.not_mem_nil
  | cons hturn _ ih =>
    intro row hrow
    rcases List.mem_cons.mp hrow with rfl | hrow
    · unfold orderedShown
      rw [hturn]
      rfl
    · exact ih row hrow

omit [DecidableEq K] [ScanKey K] in
/-- Where all that is ordered can be read, the first of it can, and is given alike. -/
theorem orderedRows_take {userPrefix : Option K} {orderBy : List OrderBy} {includeValues : Bool}
    (hread : ∀ row ∈ b.orderedLive userPrefix orderBy m,
      b.orderedTurn includeValues m.clock row = .ok (b.orderedShown includeValues m.clock row)) (limit : Option Int) :
    (b.orderedRows userPrefix orderBy limit includeValues).run m =
      (.ok ((toldLimit limit (b.orderedLive userPrefix orderBy m)).filterMap (b.orderedShown includeValues m.clock)), m) := by
  rw [orderedRows_run]
  have hrun : ∀ rows : List (SqlKey × SqlDbRow), rows ⊆ b.orderedLive userPrefix orderBy m →
      (rows.mapM (b.orderedTurn includeValues m.clock)).map (List.filterMap id) =
        .ok (rows.filterMap (b.orderedShown includeValues m.clock)) := by
    intro rows hrows
    rw [exceptMapM_ok fun row hrow => hread row (hrows hrow)]
    show Except.ok ((rows.map _).filterMap id) = _
    rw [List.filterMap_map]
    rfl
  rw [hrun]
  unfold toldLimit
  split
  · exact List.take_subset _ _
  · exact fun _ h => h

omit [DecidableEq K] [ScanKey K] in
theorem compileScan_ordered [DecidableEq K] [ScanKey K] (horder : spec.orderBy ≠ []) :
    (b.leafStore pages).listing.compileScan spec =
      if b.keyLayout ≠ .literal then .error (b.listing pages).notLiteral
      else b.resolveOrderBy spec.orderBy >>= fun orderBy =>
        enforceStrict spec spec.where_.peelKeyPrefix.2 "SqlDbKvBackend" >>= fun _ =>
          Except.ok ⟨(b.orderedRows spec.where_.peelKeyPrefix.1 orderBy (if spec.pushesLimit then spec.limit else none)
            (spec.project = .entries)).run, spec.where_.peelKeyPrefix.2⟩ := by
  show (b.listing pages).compileScan spec = _
  unfold SqlListing.compileScan
  rw [if_neg horder]
  rfl

/-- What the database orders without a limit, and what it is told to cut. -/
theorem compileScan_pushed (horder : spec.orderBy ≠ []) (hpushes : spec.pushesLimit = true)
    {compiled : CompiledScan (Medium SqlKey SqlDbRow) K V}
    (h : (b.leafStore pages).listing.compileScan spec.unlimited = .ok compiled) :
    ∃ orderBy, b.resolveOrderBy spec.orderBy = .ok orderBy ∧
      compiled.rows = (b.orderedRows spec.where_.peelKeyPrefix.1 orderBy none (spec.project = .entries)).run ∧
      (b.leafStore pages).listing.compileScan spec = .ok
        ⟨(b.orderedRows spec.where_.peelKeyPrefix.1 orderBy spec.limit (spec.project = .entries)).run,
          spec.where_.peelKeyPrefix.2⟩ := by
  have hunordered : spec.unlimited.orderBy ≠ [] := horder
  rw [compileScan_ordered hunordered] at h
  rw [compileScan_ordered horder, hpushes, if_pos rfl]
  by_cases hliteral : b.keyLayout = .literal
  · rw [if_neg (not_not.mpr hliteral)] at h ⊢
    change (b.resolveOrderBy spec.orderBy >>= fun orderBy =>
      enforceStrict spec.unlimited spec.where_.peelKeyPrefix.2 "SqlDbKvBackend" >>= fun _ => Except.ok
        (⟨(b.orderedRows spec.where_.peelKeyPrefix.1 orderBy (if spec.pushesLimit then none else none)
          (spec.project = .entries)).run, spec.where_.peelKeyPrefix.2⟩ : CompiledScan (Medium SqlKey SqlDbRow) K V)) =
            .ok compiled at h
    cases hresolved : b.resolveOrderBy spec.orderBy with
    | error e =>
      rw [hresolved] at h
      cases h
    | ok orderBy =>
      rw [hresolved] at h
      have hstrict : enforceStrict spec spec.where_.peelKeyPrefix.2 "SqlDbKvBackend" = .ok () := enforceStrict_ok h
      refine ⟨orderBy, rfl, ?_, ?_⟩
      · rw [enforceStrict_then h, ite_self]
      · show (enforceStrict spec spec.where_.peelKeyPrefix.2 "SqlDbKvBackend" >>= _) = _
        rw [hstrict]
        rfl
  · rw [if_pos hliteral] at h
    cases h

omit [DecidableEq K] in
/-- With nothing to filter by, all is given that is brought. -/
theorem asked_given (hpushes : spec.pushesLimit = true) (rows : List (ScanRow K V)) :
    spec.asked.given rows = cutAt spec.limit (rows.map fun row => projectRow row spec.project) := by
  unfold ScanSpec.pushesLimit at hpushes
  rw [Bool.and_eq_true, Option.isNone_iff_eq_none] at hpushes
  have hpasses : ∀ row, spec.asked.passes row = true := by
    intro row
    show (spec.where_.peelKeyPrefix.2.evaluate row && spec.refine.all fun refine => refine row) = true
    rw [Predicate.eq_alwaysTrue hpushes.1, hpushes.2]
    rfl
  unfold CascadeCall.given
  rw [List.filter_eq_self.mpr fun row _ => hpasses row]
  rfl

theorem applyCascade_pushed (hpushes : spec.pushesLimit = true)
    (batchGet : Option (List K → M (Medium SqlKey SqlDbRow) (Dict K V))) (rows : List (ScanRow K V)) :
    (applyCascade spec.asked batchGet rows m).1 =
      .ok (cutAt spec.limit (rows.map fun row => projectRow row spec.project)) := by
  rw [← asked_given hpushes]
  unfold ScanSpec.pushesLimit at hpushes
  rw [Bool.and_eq_true] at hpushes
  refine applyCascade_ready batchGet (fun row _ => ?_) m
  have hresidual : spec.asked.residual = .alwaysTrue := Predicate.eq_alwaysTrue hpushes.1
  unfold CascadeCall.waits CascadeCall.valueP
  rw [hresidual]
  rfl

omit [DecidableEq K] [ScanKey K] in
/-- Cut before it is seen which rows are given, and after. -/
theorem pushed_limit_iff {X Y Z : Type} (limit : Option Int) (shown : X → Option Y) (project : Y → Z) (rows : List X) :
    cutAt limit (((toldLimit limit rows).filterMap shown).map project) =
      cutAt limit ((rows.filterMap shown).map project) ↔
    ∀ n, limit = some n → 1 ≤ n → Paging.CutSpares (fun row => (shown row).isSome) n.toNat rows := by
  cases limit with
  | none => exact iff_of_true rfl fun n hnone => by cases hnone
  | some n =>
    by_cases hpositive : 1 ≤ n
    · have htold : toldLimit (some n) rows = rows.take n.toNat := by
        unfold toldLimit
        rw [Option.bind_some, if_neg (by omega)]
      have hfew : (((rows.take n.toNat).filterMap shown).map project).length ≤ n.toNat := by
        rw [List.length_map]
        exact Nat.le_trans (List.length_filterMap_le _ _) (List.length_take_le _ _)
      rw [htold]
      show List.take n.toNat _ = List.take n.toNat _ ↔ _
      rw [List.take_of_length_le hfew]
      constructor
      · intro heq n' hn' _
        have hlength := congrArg List.length heq
        rw [List.length_map, List.length_take, List.length_map] at hlength
        rw [← Option.some.inj hn']
        exact Paging.length_filterMap_take_iff.mp hlength
      · intro hspares
        rw [← Paging.filterMap_take_iff.mpr (hspares n rfl hpositive), List.map_take]
    · have hzero : n.toNat = 0 := by omega
      refine iff_of_true ?_ fun n' hn' hpos => ?_
      · show List.take n.toNat _ = List.take n.toNat _
        rw [hzero, List.take_zero, List.take_zero]
      · rw [← Option.some.inj hn'] at hpos
        exact absurd hpos hpositive

/-- The database counts the rows it orders, whether or not their keys are read. -/
theorem orderedScan_limit_iff (horder : spec.orderBy ≠ []) (hpushes : spec.pushesLimit = true)
    {all : List (ScanRow K V)} (h : ((b.leafStore pages).scanRows spec.unlimited m).1 = .ok all) :
    ∃ orderBy, b.resolveOrderBy spec.orderBy = .ok orderBy ∧
      (((b.leafStore pages).scanRows spec m).1 = .ok (cutAt spec.limit all) ↔
        ∀ limit, spec.limit = some limit → 1 ≤ limit →
          Paging.CutSpares (fun row => (b.shownRow m.clock row).isSome) limit.toNat
            (b.orderedLive spec.where_.peelKeyPrefix.1 orderBy m)) := by
  obtain ⟨henforced, compiled, rows, s₁, s₂, hcompiled, hrows, hcascade⟩ := scanRows_eq_ok h
  obtain ⟨orderBy, hresolved, hordered, hlimited⟩ := compileScan_pushed horder hpushes hcompiled
  refine ⟨orderBy, hresolved, ?_⟩
  rw [hordered, orderedRows_run] at hrows
  obtain ⟨hmapped, rfl⟩ := Prod.mk.inj hrows
  have hread : ∀ row ∈ b.orderedLive spec.where_.peelKeyPrefix.1 orderBy m, b.orderedTurn (spec.project = .entries)
      m.clock row = .ok (b.orderedShown (spec.project = .entries) m.clock row) := by
    cases hshown : (b.orderedLive spec.where_.peelKeyPrefix.1 orderBy m).mapM
        (b.orderedTurn (spec.project = .entries) m.clock) with
    | error e =>
      change ((b.orderedLive spec.where_.peelKeyPrefix.1 orderBy m).mapM
        (b.orderedTurn (spec.project = .entries) m.clock)).map _ = _ at hmapped
      rw [hshown] at hmapped
      cases hmapped
    | ok shown => exact mapM_orderedTurn hshown
  have hcounted : ∀ n, Paging.CutSpares (fun row => (b.shownRow m.clock row).isSome) n
        (b.orderedLive spec.where_.peelKeyPrefix.1 orderBy m) ↔
      Paging.CutSpares (fun row => (b.orderedShown (spec.project = .entries) m.clock row).isSome) n
        (b.orderedLive spec.where_.peelKeyPrefix.1 orderBy m) := fun n =>
    Paging.cutSpares_congr fun row hrow => (isSome_orderedShown (hread row hrow)).symm
  have hwhole := orderedRows_take hread none
  rw [orderedRows_run] at hwhole
  rw [Except.ok.inj (hmapped.symm.trans (congrArg Prod.fst hwhole))] at hcascade
  have hall : all = ((b.orderedLive spec.where_.peelKeyPrefix.1 orderBy m).filterMap
      (b.orderedShown (spec.project = .entries) m.clock)).map fun row => projectRow row spec.project :=
    Except.ok.inj ((congrArg Prod.fst hcascade).symm.trans
      (@applyCascade_pushed K V _ _ m spec.unlimited hpushes _ _))
  have hrun : ((b.leafStore pages).scanRows spec m).1 = .ok (cutAt spec.limit
      (((toldLimit spec.limit (b.orderedLive spec.where_.peelKeyPrefix.1 orderBy m)).filterMap
        (b.orderedShown (spec.project = .entries) m.clock)).map fun row => projectRow row spec.project)) := by
    have hsame : enforceOrderBySupported spec (b.leafStore pages).orderableColumns (b.leafStore pages).backend =
        .ok () := henforced
    unfold LeafKvStore.scanRows
    rw [hsame, hlimited]
    show ((Script.run (b.orderedRows spec.where_.peelKeyPrefix.1 orderBy spec.limit (spec.project = .entries)) >>=
      fun rows => applyCascade spec.asked (some (b.leafStore pages).batchGet) rows) m).1 = _
    rw [bind_ok (orderedRows_take hread spec.limit)]
    exact applyCascade_pushed hpushes _ _
  rw [hrun, hall, Except.ok.injEq]
  simp only [hcounted]
  exact pushed_limit_iff spec.limit _ _ _

/-! ## When the limit makes no difference -/

/-- Where a limit is told before it is seen what passes, it spares what does: of pages the rows that pass, of
    what the database orders the rows whose keys are read. -/
def SparesLimit (b : SqlDbKvBackend K V) (spec : ScanSpec K V) (place : K → SqlKey) (m : Medium SqlKey SqlDbRow) : Prop :=
  ∀ limit, spec.limit = some limit → 1 ≤ limit →
    (spec.orderBy = [] → b.adapter.supportsPagedScan = true → ∀ after,
      spec.cursor.mapM b.afterKeyFromCursor = .ok after →
        Paging.CutSpares (fun row => (b.judged spec place m row).isSome) limit.toNat
          (b.shownAfter spec.where_.peelKeyPrefix.1 m after)) ∧
    (spec.orderBy ≠ [] → spec.pushesLimit = true → ∀ orderBy, b.resolveOrderBy spec.orderBy = .ok orderBy →
      Paging.CutSpares (fun row => (b.shownRow m.clock row).isSome) limit.toNat
        (b.orderedLive spec.where_.peelKeyPrefix.1 orderBy m))

theorem sqlScan_limit_iff (hread : b.Readable m) (hplace : ∀ key, b.fullKeyRow key = .ok (place key))
    (hbatch : 1 ≤ b.batchSize) (hpages : m.entries.entries.length < pages) {all : List (ScanRow K V)}
    (h : ((b.leafStore pages).scanRows spec.unlimited m).1 = .ok all) :
    ((b.leafStore pages).scanRows spec m).1 = .ok (cutAt spec.limit all) ↔ b.SparesLimit spec place m := by
  by_cases horder : spec.orderBy = []
  · cases hpaged : b.adapter.supportsPagedScan with
    | true =>
      obtain ⟨after, hafter, hiff⟩ := keysetScan_limit_iff hread hplace hbatch hpages hpaged horder h
      rw [hiff]
      refine forall₃_congr fun limit _ _ => ⟨fun hspares => ⟨fun _ _ after' hafter' => ?_, fun hordered => ?_⟩,
        fun hboth => hboth.1 horder hpaged after hafter⟩
      · rw [hafter] at hafter'
        rw [← Except.ok.inj hafter']
        exact hspares
      · exact absurd horder hordered
    | false =>
      have hcompile : (b.leafStore pages).listing.compileScan spec.unlimited =
          (b.leafStore pages).listing.compileScan spec := by
        show (b.listing pages).compileScan _ = (b.listing pages).compileScan _
        have hunordered : spec.unlimited.orderBy = [] := horder
        have hunpaged : (b.listing pages).supportsPagedScan = false := hpaged
        unfold SqlListing.compileScan
        rw [if_pos horder, if_pos hunordered, hunpaged]
        rfl
      refine iff_of_true (scanRows_limit hcompile h) fun limit _ _ => ⟨fun _ hpages' => ?_, fun hordered => ?_⟩
      · rw [hpaged] at hpages'
        cases hpages'
      · exact absurd horder hordered
  · cases hpushes : spec.pushesLimit with
    | true =>
      obtain ⟨orderBy, hresolved, hiff⟩ := orderedScan_limit_iff horder hpushes h
      rw [hiff]
      refine forall₃_congr fun limit _ _ => ⟨fun hspares => ⟨fun hunordered => absurd hunordered horder,
        fun _ _ orderBy' hresolved' => ?_⟩, fun hboth => hboth.2 horder hpushes orderBy hresolved⟩
      rw [hresolved] at hresolved'
      rw [← Except.ok.inj hresolved']
      exact hspares
    | false =>
      have hcompile : (b.leafStore pages).listing.compileScan spec.unlimited =
          (b.leafStore pages).listing.compileScan spec := by
        have hunordered : spec.unlimited.orderBy ≠ [] := horder
        have hkept : spec.unlimited.pushesLimit = false := hpushes
        rw [compileScan_ordered horder, compileScan_ordered hunordered, hpushes, hkept]
        rfl
      refine iff_of_true (scanRows_limit hcompile h) fun limit _ _ => ⟨fun hunordered => absurd hunordered horder,
        fun _ hpushed => ?_⟩
      rw [hpushes] at hpushed
      cases hpushed

end SqlDbKvBackend

section Counts

variable {K V α VB : Type} [DecidableEq K] [ScanKey K] [DecidableEq α]

end Counts

/-! ### Notes -/

section Notes

/-- The second of them. -/
def secondNote : ScanSpec (List Char) String :=
  { keysOnly with
    where_ := .key "KeyIn" fun key => key = ['b']
    limit := some 1 }

/-- The first of them. -/
def firstNote : ScanSpec (List Char) String := { secondNote with where_ := .key "KeyIn" fun key => key = ['a'] }

end Notes

end Kvtsjl
