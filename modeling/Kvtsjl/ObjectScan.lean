import Kvtsjl.ObjectStore
import Kvtsjl.LeafScan
import Kvtsjl.Lib.Paging

/-
  Scans of an object store.
  `_iter_listed_rows` goes over the objects under a listing prefix page by page and shows a row
  for each live one whose key starts with the caller's prefix. With nobody else about it shows
  exactly those, in order of their objects (`iterListedRows_run`), though it deletes the expired
  ones it meets between the pages.
-/

namespace Kvtsjl

open Assoc (Dict)
open Effects Prog

namespace ObjectStoreKvBackend

variable {K V : Type} (b : ObjectStoreKvBackend K V)

/-- `_scan_stat` -/
def scanStat (stat : BlobStat) : ScanStat :=
  let record := b.ttlSource.toRecordStat stat b.ttlSeconds
  ⟨stat.size, record.modifiedAt, record.expiresAt, stat.etag⟩

/-- The turn of a listed object in `_iter_listed_rows`. -/
def listRow (userPrefix : Option K) (includeValues : Bool) (rows : List (ScanRow K V))
    (listed : String × Blob) : BlobScript (List (ScanRow K V) × Bool) := do
  match ← b.enrichListStat listed with
  | none => return (rows, true)
  | some blob => do
    let now ← Medium.time
    if b.isExpired blob.stat now then
      if b.expiryGc = .lazyDelete then
        let _ ← collectBlob listed.1 blob
        return (rows, true)
      else return (rows, true)
    else
      match b.decodeIfPrefix listed.1 userPrefix with
      | none => return (rows, true)
      | some key =>
        if includeValues then
          match ← b.liveBlob listed.1 with
          | none => return (rows, true)
          | some live => do
            let value ← Script.done (b.deserialize live.data)
            return (rows ++ [⟨key, some value, some (b.scanStat blob.stat)⟩], true)
        else return (rows ++ [⟨key, none, some (b.scanStat blob.stat)⟩], true)

/-- `_iter_listed_rows`, `pages` of the listing at most. -/
def iterListedRows (listing : String) (userPrefix : Option K) (includeValues : Bool) (pages : Nat) :
    BlobScript (List (ScanRow K V)) :=
  b.walk listing (b.listRow userPrefix includeValues) pages none []

/-- How it lists for `compile_scan`. -/
def listing (pages : Nat) : ObjectListing (Medium String Blob) K V where
  typeName := b.typeName
  keyLayout := b.keyLayout
  listedRows userPrefix includeValues := do
    let listing ← ofExcept (b.listingPrefix userPrefix)
    (b.iterListedRows listing userPrefix includeValues pages).run

def leafStore [DecidableEq K] (pages : Nat) : LeafKvStore (Medium String Blob) K V where
  backend := b.typeName
  orderableColumns := none
  listing := .object (b.listing pages)
  batchGet := defaultBatchGet fun key => (b.get key).run

/-! ## Going over a listing -/

section Walk

/-- The objects under a prefix after a key, in order. -/
def listed (listing : String) (after : Option String) (objects : Dict String Blob) : List (String × Blob) :=
  (objects.entries.filter fun e => e.1.startsWith listing && after.all (· < e.1)).mergeSort
    fun x y => x.1 ≤ y.1

theorem mem_listed {listing : String} {after : Option String} {objects : Dict String Blob}
    {x : String × Blob} : x ∈ listed listing after objects ↔
      objects.get? x.1 = some x.2 ∧ x.1.startsWith listing = true ∧ ∀ a, after = some a → a < x.1 := by
  unfold listed
  rw [List.mem_mergeSort, List.mem_filter, Bool.and_eq_true, Option.all_eq_true]
  simp only [decide_eq_true_eq]
  exact and_congr_left' (Dict.mem_entries (d := objects) (k := x.1) (v := x.2))

theorem listed_sorted (listing : String) (after : Option String) (objects : Dict String Blob) :
    (listed listing after objects).Pairwise fun x y => x.1 < y.1 := by
  have hkeys : objects.entries.Pairwise fun x y => x.1 ≠ y.1 := List.pairwise_map.mp objects.nodup
  have hlevel : ∀ x ∈ objects.entries.filter fun e => e.1.startsWith listing && after.all (· < e.1),
      ∀ y ∈ objects.entries.filter fun e => e.1.startsWith listing && after.all (· < e.1),
        decide (x.1 ≤ y.1) = true → decide (y.1 ≤ x.1) = true → x = y := by
    intro x hx y hy hxy hyx
    have hkey := String.le_antisymm (of_decide_eq_true hxy) (of_decide_eq_true hyx)
    have hget := Dict.mem_entries.mp (List.mem_of_mem_filter hx)
    rw [hkey, Dict.mem_entries.mp (List.mem_of_mem_filter hy)] at hget
    exact Prod.ext hkey (Option.some.inj hget).symm
  have hnodup : (objects.entries.filter fun e =>
      e.1.startsWith listing && after.all (· < e.1)).Nodup :=
    (hkeys.imp fun hne heq => hne (congrArg Prod.fst heq)).filter _
  refine (Paging.pairwise_mergeSort_strict ?_ ?_ hnodup hlevel).imp fun {x y} h => ?_
  · intro x y z hxy hyz
    exact decide_eq_true (String.le_trans (of_decide_eq_true hxy) (of_decide_eq_true hyz))
  · intro x y
    rw [Bool.or_eq_true, decide_eq_true_eq, decide_eq_true_eq]
    exact String.le_total x.1 y.1
  · exact String.not_le.mp (of_decide_eq_false h)

/-- What a step may do to the objects: the clock stands, and only the listed object may go. -/
def OnlyAt (m m' : Medium String Blob) (keys : List String) : Prop :=
  m'.clock = m.clock ∧ ∀ k, k ∉ keys → m'.entries.get? k = m.entries.get? k

/-- The step adds the row of each listed object, if it has one, and goes on. -/
def Adds {R : Type} (now : Instant) (step : List R → String × Blob → BlobScript (List R × Bool))
    (row : String × Blob → Option R) : Prop :=
  ∀ acc x m, m.clock = now → m.entries.get? x.1 = some x.2 →
    ∃ m', (step acc x).run m = (.ok (acc ++ (row x).toList, true), m') ∧ OnlyAt m m' [x.1]

/-- As `Adds`, of the objects that are `among` some. -/
def AddsAmong {R : Type} (among : String × Blob → Prop) (now : Instant)
    (step : List R → String × Blob → BlobScript (List R × Bool)) (row : String × Blob → Option R) : Prop :=
  ∀ acc x m, among x → m.clock = now → m.entries.get? x.1 = some x.2 →
    ∃ m', (step acc x).run m = (.ok (acc ++ (row x).toList, true), m') ∧ OnlyAt m m' [x.1]

variable {R : Type} {among : String × Blob → Prop} {now : Instant}
  {step : List R → String × Blob → BlobScript (List R × Bool)} {row : String × Blob → Option R}

/-- A page, each of its objects still there when its turn comes. -/
theorem page_run (h : AddsAmong among now step row) (page : List (String × Blob)) :
    (page.map Prod.fst).Nodup → (∀ x ∈ page, among x) → ∀ acc m, m.clock = now →
      (∀ x ∈ page, m.entries.get? x.1 = some x.2) →
      ∃ m', (page.foldlM (fun (acc, more) listed =>
          if more then step acc listed else pure (acc, more)) (acc, true) :
            BlobScript (List R × Bool)).run m = (.ok (acc ++ page.filterMap row, true), m') ∧
        OnlyAt m m' (page.map Prod.fst) := by
  induction page with
  | nil =>
    intro _ _ acc m _ _
    exact ⟨m, by rw [List.filterMap_nil, List.append_nil]; rfl, rfl, fun _ _ => rfl⟩
  | cons x page ih =>
    intro hnodup hamong acc m hnow hheld
    rw [List.map_cons, List.nodup_cons] at hnodup
    obtain ⟨m1, hrun, hclock, hsame⟩ := h acc x m (hamong x List.mem_cons_self) hnow (hheld x List.mem_cons_self)
    have hheld1 : ∀ y ∈ page, m1.entries.get? y.1 = some y.2 := by
      intro y hy
      have hne : y.1 ∉ [x.1] := by
        intro hyx
        exact hnodup.1 (List.mem_singleton.mp hyx ▸ List.mem_map_of_mem hy)
      rw [hsame y.1 hne]
      exact hheld y (List.mem_cons_of_mem _ hy)
    obtain ⟨m2, hrest, hclock2, hsame2⟩ := ih hnodup.2 (fun y hy => hamong y (List.mem_cons_of_mem _ hy))
      (acc ++ (row x).toList) m1 (hclock.trans hnow) hheld1
    refine ⟨m2, ?_, hclock2.trans hclock, fun k hk => ?_⟩
    · rw [List.foldlM_cons, Script.run_bind]
      have hstep : (if true = true then step acc x else pure (acc, true)).run m = _ := hrun
      rw [bind_ok hstep, hrest, List.filterMap_cons]
      cases row x with
      | none => rw [Option.toList_none, List.append_nil]
      | some r => rw [Option.toList_some, List.append_assoc]; rfl
    · rw [List.map_cons, List.mem_cons, not_or] at hk
      rw [hsame2 k hk.2, hsame k (by rw [List.mem_singleton]; exact hk.1)]

/-- All pages of a listing, where there are enough of them. -/
theorem walk_run (hpage : 1 ≤ b.driver.listPageSize) (h : AddsAmong among now step row) (listing : String)
    (pages : Nat) : ∀ after acc m, m.clock = now → (∀ x ∈ listed listing after m.entries, among x) →
      (listed listing after m.entries).length < pages →
      ∃ m', (b.walk listing step pages after acc).run m =
        (.ok (acc ++ (listed listing after m.entries).filterMap row), m') := by
  induction pages with
  | zero => exact fun after acc m _ _ hlt => absurd hlt (Nat.not_lt_zero _)
  | succ pages ih =>
    intro after acc m hnow hamong hlt
    have hsorted := listed_sorted listing after m.entries
    generalize hrest : listed listing after m.entries = rest at hamong hlt hsorted ⊢
    have hfetch : (b.listPage listing after).run m = (.ok (rest.take b.driver.listPageSize), m) := by
      rw [← hrest]
      rfl
    have hheld : ∀ x ∈ rest.take b.driver.listPageSize, m.entries.get? x.1 = some x.2 := by
      intro x hx
      have hin := List.mem_of_mem_take hx
      rw [← hrest] at hin
      exact (mem_listed.mp hin).1
    have hnodup : ((rest.take b.driver.listPageSize).map Prod.fst).Nodup := by
      refine List.pairwise_map.mpr ((hsorted.sublist (List.take_sublist _ _)).imp fun {x y} hxy heq => ?_)
      exact String.lt_irrefl _ (heq ▸ hxy)
    obtain ⟨m1, hrows, hclock, hsame⟩ :=
      page_run h _ hnodup (fun x hx => hamong x (List.mem_of_mem_take hx)) acc m hnow hheld
    rw [walk, Script.run_bind, bind_ok hfetch, Script.run_bind, bind_ok hrows]
    dsimp only
    cases hlast : (rest.take b.driver.listPageSize).getLast? with
    | none =>
      have hempty : rest = [] := by
        rw [List.getLast?_eq_none_iff, List.take_eq_nil_iff] at hlast
        rcases hlast with hzero | hnil
        · omega
        · exact hnil
      refine ⟨m1, ?_⟩
      rw [hempty, List.take_nil]
      rfl
    | some last =>
      dsimp only
      rw [Bool.true_and]
      by_cases hfull : (rest.take b.driver.listPageSize).length = b.driver.listPageSize
      · have hlater : listed listing (some last.1) m1.entries = rest.drop b.driver.listPageSize := by
          refine Paging.after_page (fun x y hxy => String.lt_asymm hxy) hsorted (listed_sorted _ _ _) hlast
            fun x => ?_
          have hlastkey := mem_listed.mp (hrest ▸ List.mem_of_mem_take (List.mem_of_getLast? hlast))
          have hpast : last.1 < x.1 → m1.entries.get? x.1 = m.entries.get? x.1 := by
            intro hlt
            refine hsame x.1 fun hmem => ?_
            obtain ⟨y, hy, hyx⟩ := List.mem_map.mp hmem
            obtain ⟨before, hbefore⟩ := List.getLast?_eq_some_iff.mp hlast
            have hordered := hsorted.sublist (List.take_sublist b.driver.listPageSize rest)
            rw [hbefore] at hy hordered
            rcases List.mem_append.mp hy with hy | hy
            · have hylast := (List.pairwise_append.mp hordered).2.2 y hy last (List.mem_singleton_self last)
              exact String.lt_asymm hlt (hyx ▸ hylast)
            · rw [← hyx, List.mem_singleton.mp hy] at hlt
              exact String.lt_irrefl _ hlt
          rw [← hrest, mem_listed, mem_listed]
          constructor
          · intro ⟨hget, hstarts, hafter⟩
            have hlt := hafter last.1 rfl
            rw [hpast hlt] at hget
            exact ⟨⟨hget, hstarts, fun a ha => String.lt_trans (hlastkey.2.2 a ha) hlt⟩, hlt⟩
          · intro ⟨⟨hget, hstarts, _⟩, hlt⟩
            rw [← hpast hlt] at hget
            exact ⟨hget, hstarts, fun a ha => Option.some.inj ha ▸ hlt⟩
        have hshort : (rest.drop b.driver.listPageSize).length < pages := by
          rw [List.length_drop]
          rw [List.length_take] at hfull
          omega
        rw [if_pos (by rw [decide_eq_true hfull])]
        obtain ⟨m2, hmore⟩ := ih (some last.1) (acc ++ (rest.take b.driver.listPageSize).filterMap row) m1
          (hclock.trans hnow) (by rw [hlater]; exact fun x hx => hamong x (List.mem_of_mem_drop hx))
          (by rw [hlater]; exact hshort)
        refine ⟨m2, ?_⟩
        rw [hmore, hlater, List.append_assoc, ← List.filterMap_append, List.take_append_drop]
      · refine ⟨m1, ?_⟩
        rw [if_neg (by rw [decide_eq_true_eq]; exact hfull)]
        have hall : rest.take b.driver.listPageSize = rest := by
          rw [List.length_take] at hfull
          exact List.take_of_length_le (by omega)
        rw [hall]
        rfl

end Walk

/-! ## The rows of a listing -/

section Rows

/-- The row of a listed object that is live and decodes under the caller's prefix. -/
def listedRow (userPrefix : Option K) (now : Instant) (x : String × Blob) : Option (ScanRow K V) :=
  if b.isExpired x.2.stat now then none
  else (b.decodeIfPrefix x.1 userPrefix).map fun key => ⟨key, none, some (b.scanStat x.2.stat)⟩

theorem readBlob_run (objectKey : String) (m : Medium String Blob) :
    (readBlob objectKey).run m = (.ok (m.entries.get? objectKey), m) := by
  have hfetch : ∀ f : Dict String Blob → List (String × Blob),
      (Medium.fetch f : BlobScript (List (String × Blob))).run m = (.ok (f m.entries), m) := fun _ => rfl
  unfold readBlob
  rw [Script.run_bind, bind_ok (hfetch _)]
  cases m.entries.get? objectKey <;> rfl

theorem enrichListStat_run {x : String × Blob} {m : Medium String Blob}
    (h : m.entries.get? x.1 = some x.2) : (b.enrichListStat x).run m = (.ok (some x.2), m) := by
  unfold enrichListStat
  split
  · rw [readBlob_run, h]
  · rfl

theorem listRow_adds (userPrefix : Option K) (now : Instant) :
    Adds now (b.listRow userPrefix false) (b.listedRow userPrefix now) := by
  intro acc x m hnow hheld
  have htime : (Medium.time : BlobScript Int).run m = (.ok now, m) := by
    rw [← hnow]
    rfl
  have hsame : OnlyAt m m [x.1] := ⟨rfl, fun _ _ => rfl⟩
  unfold listRow listedRow
  rw [Script.run_bind, bind_ok (b.enrichListStat_run hheld)]
  dsimp only
  rw [Script.run_bind, bind_ok htime]
  by_cases hexpired : b.isExpired x.2.stat now = true
  · rw [if_pos hexpired, if_pos hexpired, Option.toList_none, List.append_nil]
    split
    · refine ⟨{ m with entries := m.entries.erase x.1 }, rfl, rfl, fun k hk => ?_⟩
      rw [List.mem_singleton] at hk
      show (m.entries.erase x.1).get? k = _
      rw [Dict.get?_erase, if_neg hk]
    · exact ⟨m, rfl, hsame⟩
  · rw [if_neg hexpired, if_neg hexpired]
    cases b.decodeIfPrefix x.1 userPrefix with
    | none => exact ⟨m, by rw [Option.map_none, Option.toList_none, List.append_nil]; rfl, hsame⟩
    | some key => exact ⟨m, rfl, hsame⟩

/-- A listed object whose value can be read, if it is live. -/
def ReadsBack (now : Instant) (x : String × Blob) : Prop :=
  b.isExpired x.2.stat now = false → ∃ v, b.deserialize x.2.data = .ok v

/-- The row of a listed object, with its value if it is asked for. -/
def listedEntry (userPrefix : Option K) (includeValues : Bool) (now : Instant) (x : String × Blob) :
    Option (ScanRow K V) :=
  (b.listedRow userPrefix now x).map fun row =>
    if includeValues then { row with value := (b.deserialize x.2.data).toOption } else row

theorem listedEntry_bare (userPrefix : Option K) (now : Instant) (x : String × Blob) :
    b.listedEntry userPrefix false now x = b.listedRow userPrefix now x := by
  unfold listedEntry
  exact Option.map_id'

theorem liveBlob_run {x : String × Blob} {m : Medium String Blob} (hheld : m.entries.get? x.1 = some x.2)
    (hlive : b.isExpired x.2.stat m.clock = false) : (b.liveBlob x.1).run m = (.ok (some x.2), m) := by
  have htime : (Medium.time : BlobScript Int).run m = (.ok m.clock, m) := rfl
  unfold liveBlob
  rw [Script.run_bind, bind_ok (readBlob_run x.1 m), hheld]
  dsimp only
  rw [Script.run_bind, bind_ok htime, hlive]
  rfl

theorem listRow_addsAmong (userPrefix : Option K) (includeValues : Bool) (now : Instant) :
    AddsAmong (fun x => includeValues = true → b.ReadsBack now x) now (b.listRow userPrefix includeValues)
      (b.listedEntry userPrefix includeValues now) := by
  intro acc x m hamong hnow hheld
  cases includeValues with
  | false =>
    rw [b.listedEntry_bare]
    exact b.listRow_adds userPrefix now acc x m hnow hheld
  | true =>
    have htime : (Medium.time : BlobScript Int).run m = (.ok now, m) := by
      rw [← hnow]
      rfl
    cases hexpired : b.isExpired x.2.stat now with
    | true =>
      have hnone : ∀ values, b.listedEntry userPrefix values now x = none := by
        intro values
        unfold listedEntry listedRow
        rw [hexpired]
        rfl
      have hrun : (b.listRow userPrefix true acc x).run m = (b.listRow userPrefix false acc x).run m := by
        unfold listRow
        rw [Script.run_bind, Script.run_bind, bind_ok (b.enrichListStat_run hheld), bind_ok (b.enrichListStat_run hheld)]
        dsimp only
        rw [Script.run_bind, Script.run_bind, bind_ok htime, bind_ok htime, hexpired]
        rfl
      rw [hrun, hnone]
      have hbare := b.listRow_adds userPrefix now acc x m hnow hheld
      unfold listedRow at hbare
      rw [hexpired] at hbare
      exact hbare
    | false =>
      obtain ⟨v, hv⟩ := hamong rfl hexpired
      unfold listRow listedEntry listedRow
      rw [Script.run_bind, bind_ok (b.enrichListStat_run hheld)]
      dsimp only
      rw [Script.run_bind, bind_ok htime, hexpired]
      cases b.decodeIfPrefix x.1 userPrefix with
      | none =>
        refine ⟨m, ?_, rfl, fun _ _ => rfl⟩
        show (Except.ok (acc, true), m) = (Except.ok (acc ++ [], true), m)
        rw [List.append_nil]
      | some key =>
        have hblob := b.liveBlob_run hheld (by rw [hnow]; exact hexpired)
        refine ⟨m, ?_, rfl, fun _ _ => rfl⟩
        show (b.liveBlob x.1 >>= _).run m = _
        rw [Script.run_bind, bind_ok hblob]
        dsimp only
        rw [hv]
        rfl

/-- With nobody else about, a listing shows every live object under its prefix that decodes, in order,
    with its value if it is asked for. -/
theorem iterListedRows_entries (hpage : 1 ≤ b.driver.listPageSize) (listing : String) (userPrefix : Option K)
    (includeValues : Bool) {pages : Nat} {m : Medium String Blob} (hpages : m.entries.entries.length < pages)
    (hvalues : includeValues = true → ∀ x ∈ listed listing none m.entries, b.ReadsBack m.clock x) :
    ∃ m', (b.iterListedRows listing userPrefix includeValues pages).run m =
      (.ok ((listed listing none m.entries).filterMap (b.listedEntry userPrefix includeValues m.clock)), m') := by
  have hlength : (listed listing none m.entries).length < pages := by
    have hfilter := List.length_filter_le (fun e : String × Blob => e.1.startsWith listing &&
      (none : Option String).all (· < e.1)) m.entries.entries
    unfold listed
    rw [List.length_mergeSort]
    exact Nat.lt_of_le_of_lt hfilter hpages
  obtain ⟨m', hrun⟩ := b.walk_run hpage (b.listRow_addsAmong userPrefix includeValues m.clock) listing pages none
    [] m rfl (fun x hx hasked => hvalues hasked x hx) hlength
  exact ⟨m', hrun⟩

/-- With nobody else about, a listing without values shows every live object under its prefix that
    decodes, in order. -/
theorem iterListedRows_run (hpage : 1 ≤ b.driver.listPageSize) (listing : String) (userPrefix : Option K)
    {pages : Nat} {m : Medium String Blob} (hpages : m.entries.entries.length < pages) :
    ∃ m', (b.iterListedRows listing userPrefix false pages).run m =
      (.ok ((listed listing none m.entries).filterMap (b.listedRow userPrefix m.clock)), m') := by
  obtain ⟨m', hrun⟩ := b.iterListedRows_entries hpage listing userPrefix false hpages
    fun hfalse => absurd hfalse Bool.false_ne_true
  rw [funext (b.listedEntry_bare userPrefix m.clock)] at hrun
  exact ⟨m', hrun⟩

end Rows

end ObjectStoreKvBackend

end Kvtsjl
