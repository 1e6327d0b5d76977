import Kvtsjl.Lib.Oldest
import Kvtsjl.ScopedScans
import Kvtsjl.ObjectCollection
import Kvtsjl.SqlCollection
import Kvtsjl.Cursors

/-
  `expired_keys`: the oldest first, up to a limit.
  A memory walks its dictionary, an object store its listing and by its own clock, and a table is
  asked for its rows in the order they died. Which entries each of them meets, and which of two it
  meets sooner, can be said of the entries before the call (`route`), and so can whether it answers
  at every limit: `expiredKeys_iff`. A dictionary is in the order of its keys' first writes, and a
  listing in that of their paths.
-/

namespace Kvtsjl

open Assoc (Dict)
open Effects Prog Oldest

/-- With any limit the call returns the oldest of what is looked for, up to the limit, and
    changes nothing. -/
def OldestExpired {P K S : Type} (due : Search P K) (call : Int → Except Exn (List K) × S) (state : S) : Prop :=
  ∀ limit, 1 ≤ limit → ∃ keys, call limit = (.ok keys, state) ∧ due.Answers limit.toNat keys

section Calls

variable {P K S : Type} {due : Search P K} {call : Int → Except Exn (List K) × S} {state : S} {rows : List P}

theorem oldestExpired_of_walk (h : ∀ limit : Int, 1 ≤ limit →
      call limit = (.ok ((rows.filterMap due.name).take limit.toNat), state)) :
    OldestExpired due call state ↔ due.Told rows := by
  rw [← Search.walk_iff]
  constructor
  · intro hcall n hn
    obtain ⟨keys, hkeys, hanswers⟩ := hcall n (by omega)
    rw [h n (by omega)] at hkeys
    rw [← Except.ok.inj (Prod.mk.inj hkeys).1] at hanswers
    exact hanswers
  · intro hwalk limit hlimit
    exact ⟨_, h limit hlimit, hwalk limit.toNat (by omega)⟩

theorem oldestExpired_of_cut (h : ∀ limit : Int, 1 ≤ limit →
      call limit = (.ok ((rows.take limit.toNat).filterMap due.name), state)) :
    OldestExpired due call state ↔ due.Told rows ∧ due.NamedFirst rows := by
  rw [← Search.cut_iff]
  constructor
  · intro hcall n hn
    obtain ⟨keys, hkeys, hanswers⟩ := hcall n (by omega)
    rw [h n (by omega)] at hkeys
    rw [← Except.ok.inj (Prod.mk.inj hkeys).1] at hanswers
    exact hanswers
  · intro hcut limit hlimit
    exact ⟨_, h limit hlimit, hcut limit.toNat (by omega)⟩

theorem not_oldestExpired {e : Exn} (h : call 1 = (.error e, state)) : ¬ OldestExpired due call state := by
  intro hcall
  obtain ⟨keys, hkeys, -⟩ := hcall 1 (Int.le_refl 1)
  rw [h] at hkeys
  cases hkeys

end Calls

/-! ## A memory -/

namespace MemoryKvBackend

variable {K V α VB : Type} [DecidableEq α] (b : MemoryKvBackend K V α VB)

/-- The place of a key that was written under the view's scope, or under one that extends it by
    further segments. -/
def Under (p : List α) : Prop :=
  ∃ (scope : Scope) (h : b.kvset.validateScope scope = .ok ()) (key : K),
    scope.Extends b.scope ∧ (b.inScope scope h).physicalKeyBlob key = .ok p

/-- When the entry of a place expires. -/
def expiryAt (r : MemoryRoot α VB) (p : List α) : Option Instant := (b.entryAt r p).bind (·.expiresAt)

/-- The entries under the scope that have expired by a time. -/
def dueAt (r : MemoryRoot α VB) (now : Option Instant) : Search (List α) K where
  wanted p := b.Under p ∧ ∃ d, b.expiryAt r p = some d ∧ d ≤ clockBase r now
  before p q := ∀ d d', b.expiryAt r p = some d → b.expiryAt r q = some d' → d ≤ d'
  name := b.decodeKeyFromPhysical

/-- The entries past their time whose place begins with the scope's text, as the dictionary has them. -/
def route (r : MemoryRoot α VB) (now : Option Instant) : Route (List α) where
  met p := (∃ d, b.expiryAt r p = some d ∧ d ≤ clockBase r now) ∧ b.scanPrefixBlob none <+: p
  sooner p q := List.Sublist [p, q] (r.bucket b.collection).keys

/-- The walk along the dictionary. -/
def pastTime (r : MemoryRoot α VB) (now : Option Instant) : List (List α) :=
  (r.bucket b.collection).keys.filter fun p =>
    (b.expiryAt r p).any (· ≤ clockBase r now) && decide (b.scanPrefixBlob none <+: p)

variable {b}

theorem expiredKey_eq (r : MemoryRoot α VB) (now : Option Instant) (p : List α) : b.expiredKey r now p =
    if (b.expiryAt r p).any (· ≤ clockBase r now) && decide (b.scanPrefixBlob none <+: p) then
      b.decodeKeyFromPhysical p else none := by
  unfold expiredKey expiryAt
  cases b.entryAt r p with
  | none => rfl
  | some entry =>
    show (if ¬ expired entry (clockBase r now) = true then none else _) =
      if entry.expiresAt.any (· ≤ clockBase r now) && _ then _ else _
    have hexpired : expired entry (clockBase r now) = entry.expiresAt.any (· ≤ clockBase r now) := by
      unfold expired
      cases entry.expiresAt <;> rfl
    rw [hexpired]
    by_cases hpast : entry.expiresAt.any (· ≤ clockBase r now) = true
    · by_cases hprefix : b.scanPrefixBlob none <+: p
      · simp [hpast, hprefix]
      · simp [hpast, hprefix]
    · simp [hpast]

theorem pastTime_along (r : MemoryRoot α VB) (now : Option Instant) :
    (b.route r now).Along (b.pastTime r now) where
  mem p := by
    unfold pastTime
    rw [List.mem_filter, Bool.and_eq_true, decide_eq_true_eq, Option.any_eq_true]
    simp only [decide_eq_true_eq]
    refine ⟨fun h => h.2, fun h => ⟨?_, h⟩⟩
    obtain ⟨⟨d, hd, -⟩, -⟩ := h
    obtain ⟨entry, hentry, -⟩ := Option.bind_eq_some_iff.mp hd
    exact Dict.mem_keys.mpr ⟨entry, hentry⟩
  sorted := List.pairwise_iff_forall_sublist.mpr fun hpair => hpair.trans List.filter_sublist
  asymm _ _ := Stable.pair_sublist_asymm (r.bucket b.collection).nodup

/-- What was written under the scope begins with its text. -/
theorem scanPrefixBlob_of_under {p : List α} (h : b.Under p) : b.scanPrefixBlob none <+: p := by
  obtain ⟨scope, hvalid, key, ⟨rest, hrest⟩, hkey⟩ := h
  unfold KvBackend.physicalKeyBlob at hkey
  cases hescaped : (b.inScope scope hvalid).kvset.leafNeedsEscaping (b.inScope scope hvalid).scope with
  | error e =>
    rw [hescaped] at hkey
    cases hkey
  | ok escaped =>
    rw [hescaped] at hkey
    have hitem : b.kvset.joinParts (b.binding.nameVersionPrefix ++ b.kvset.scopeParts scope ++
        [b.leafBlob key escaped]) = p := Except.ok.inj hkey
    have hparts : b.kvset.scopeParts scope = b.kvset.scopeParts b.scope ++ b.kvset.scopeParts ⟨rest⟩ := by
      unfold KvSet.scopeParts
      rw [← List.flatMap_append, hrest]
    have hfront : b.scanPrefixBlob none = b.kvset.joinParts b.prefixParts := congrArg _ (List.append_nil _)
    rw [← hitem, hparts, hfront, ← List.append_assoc, List.append_assoc _ _ [_]]
    exact Delimited.join_prefix _ _ _

theorem expiredKeys_orderly_iff (r : MemoryRoot α VB) (now : Option Instant) :
    OldestExpired (b.dueAt r now) (fun limit => b.expiredKeys now limit r) r ↔
      (b.dueAt r now).Orderly (b.route r now) := by
  have hmet : ∀ p, (b.dueAt r now).wanted p → (b.route r now).met p :=
    fun p hp => ⟨hp.2, scanPrefixBlob_of_under hp.1⟩
  rw [← Search.fits_iff_orderly hmet, ← Search.told_iff_fits (pastTime_along r now)]
  refine oldestExpired_of_walk fun limit hlimit => ?_
  have hrows : (r.bucket b.collection).keys.filterMap (b.expiredKey r now) =
      (b.pastTime r now).filterMap b.decodeKeyFromPhysical := by
    unfold pastTime
    rw [List.filterMap_filter]
    exact List.filterMap_congr fun p _ => expiredKey_eq r now p
  unfold expiredKeys
  rw [if_neg (by omega)]
  show (Except.ok (((r.bucket b.collection).keys.filterMap (b.expiredKey r now)).take limit.toNat), r) = _
  rw [hrows]
  rfl

end MemoryKvBackend

/-! ## An object store -/

namespace KeyCodec

variable {K V α VB : Type} [DecidableEq α] (w : ScanWire α) (sha256 : List UInt8 → List Char)
  (c : KeyCodec K V α VB) (b : ObjectStoreKvBackend K V)

/-- The object of a key that was written under the view's scope, or under one that extends it. -/
def Under (p : String) : Prop :=
  ∃ (scope : Scope) (h : c.kvset.validateScope scope = .ok ()) (key : K),
    scope.Extends c.scope ∧ (c.cloneWithScope scope h).encodePhysical w.toPathWire sha256 key = .ok p.toList

/-- When an object expires. -/
def expiryAt (m : Medium String Blob) (p : String) : Option Instant :=
  (m.entries.get? p).bind fun blob => b.ttlSource.deathTime blob.stat b.ttlSeconds

/-- The objects under the scope that have expired by a time. -/
def dueAt (m : Medium String Blob) (now : Option Instant) : Search String K where
  wanted p := c.Under w sha256 p ∧ ∃ d, expiryAt b m p = some d ∧ d ≤ now.getD m.clock
  before p q := ∀ d d', expiryAt b m p = some d → expiryAt b m q = some d' → d ≤ d'
  name p := c.decodeIfPrefix w p.toList none

/-- The objects under a listing's prefix that are past their time by the store's own clock, in the order
    of their paths. -/
def route (listing : String) (m : Medium String Blob) : Route String where
  met p := p.startsWith listing = true ∧ ∃ blob, m.entries.get? p = some blob ∧ b.isExpired blob.stat m.clock = true
  sooner p q := p < q

/-- The walk along the listing. -/
def pastTime (listing : String) (m : Medium String Blob) : List String :=
  ((ObjectStoreKvBackend.listed listing none m.entries).filter fun x => b.isExpired x.2.stat m.clock).map (·.1)

variable {w sha256 c b}

theorem pastTime_along (listing : String) (m : Medium String Blob) :
    (route b listing m).Along (pastTime b listing m) where
  mem p := by
    unfold pastTime
    rw [List.mem_map]
    constructor
    · rintro ⟨x, hx, rfl⟩
      obtain ⟨hlisted, hexpired⟩ := List.mem_filter.mp hx
      obtain ⟨hheld, hstarts, -⟩ := ObjectStoreKvBackend.mem_listed.mp hlisted
      exact ⟨hstarts, x.2, hheld, hexpired⟩
    · rintro ⟨hstarts, blob, hheld, hexpired⟩
      refine ⟨(p, blob), List.mem_filter.mpr ⟨ObjectStoreKvBackend.mem_listed.mpr ⟨hheld, hstarts, ?_⟩, hexpired⟩, rfl⟩
      exact fun a ha => nomatch ha
  sorted := List.pairwise_map.mpr ((ObjectStoreKvBackend.listed_sorted listing none m.entries).filter _)
  asymm _ _ := String.lt_asymm

theorem expiredKeys_fits_iff (hpage : 1 ≤ b.driver.listPageSize) {pages : Nat} {m : Medium String Blob}
    (hpages : m.entries.entries.length < pages) (now : Option Instant) :
    OldestExpired (c.dueAt w sha256 b m now)
        (fun limit => ((c.objectStore w sha256 b).expiredKeys limit pages).run m) m ↔
      ∃ listing, c.listingPrefix w sha256 none = .ok listing ∧
        (c.dueAt w sha256 b m now).Fits (route b (String.ofList listing) m) := by
  simp only [← Search.told_iff_fits (pastTime_along _ m)]
  cases hlisting : c.listingPrefix w sha256 none with
  | error e =>
    have hraises : ((c.objectStore w sha256 b).expiredKeys 1 pages).run m = (.error e, m) := by
      have hprefix : (c.objectStore w sha256 b).listingPrefix none = .error e := by
        show (c.listingPrefix w sha256 none).map String.ofList = _
        rw [hlisting]
        rfl
      unfold ObjectStoreKvBackend.expiredKeys ObjectStoreKvBackend.expiredListed
      rw [if_neg (by omega), hprefix]
      rfl
    exact iff_of_false (not_oldestExpired hraises) fun ⟨listing, h, _⟩ => nomatch h
  | ok listing =>
    have hprefix : (c.objectStore w sha256 b).listingPrefix none = .ok (String.ofList listing) := by
      show (c.listingPrefix w sha256 none).map String.ofList = _
      rw [hlisting]
      rfl
    have hnames : ((ObjectStoreKvBackend.listed (String.ofList listing) none m.entries).filterMap
        ((c.objectStore w sha256 b).foundRow m.clock)).map (·.1) =
        (pastTime b (String.ofList listing) m).filterMap fun p => c.decodeIfPrefix w p.toList none := by
      unfold pastTime
      rw [List.map_filterMap, List.filterMap_map, List.filterMap_filter]
      refine List.filterMap_congr fun x _ => ?_
      unfold ObjectStoreKvBackend.foundRow
      have hexpired : (c.objectStore w sha256 b).isExpired x.2.stat m.clock = b.isExpired x.2.stat m.clock := rfl
      rw [hexpired]
      split
      · show Option.map _ (Option.map _ (c.decodeIfPrefix w x.1.toList none)) = c.decodeIfPrefix w x.1.toList none
        cases c.decodeIfPrefix w x.1.toList none <;> rfl
      · rfl
    have hwalk := @oldestExpired_of_walk _ _ _ (c.dueAt w sha256 b m now)
      (fun limit => ((c.objectStore w sha256 b).expiredKeys limit pages).run m) m
      (pastTime b (String.ofList listing) m) ?_
    · rw [hwalk]
      constructor
      · exact fun h => ⟨listing, rfl, h⟩
      · rintro ⟨listing', h, htold⟩
        rw [Except.ok.inj h]
        exact htold
    · intro limit hlimit
      have hrun := ObjectStoreKvBackend.expiredListed_run (b := c.objectStore w sha256 b) hpage hprefix hlimit hpages
      unfold ObjectStoreKvBackend.expiredKeys
      rw [Script.run_bind, bind_ok hrun]
      rw [List.map_take, hnames]
      rfl

end KeyCodec

/-! ## A table -/

namespace KeyedTable

variable {K V VB : Type} (t : KeyedTable K V VB)

/-- The table under another scope. -/
def inScope (scope : Scope) (h : t.keys.kvset.validateScope scope = .ok ()) : KeyedTable K V VB :=
  { t with keys := { t.keys with scope := scope, valid := h } }

/-- The row of a key that was written under the view's scope, or under one that extends it. -/
def Under (key : SqlKey) : Prop :=
  ∃ (scope : Scope) (h : t.keys.kvset.validateScope scope = .ok ()) (k : K),
    scope.Extends t.keys.scope ∧ (t.inScope scope h).store.fullKeyRow k = .ok key

/-- The rows under the scope that have expired by a time. -/
def dueAt (m : Medium SqlKey SqlDbRow) (now : Option Instant) : Search (SqlKey × SqlDbRow) K where
  wanted row := row ∈ m.entries.entries ∧ t.Under row.1 ∧
    ∃ d, t.store.deathTime row.2 = .ok (some d) ∧ d ≤ now.getD m.clock
  before x y := ∀ d d', t.store.deathTime x.2 = .ok (some d) → t.store.deathTime y.2 = .ok (some d') → d ≤ d'
  name row := t.store.decodeLeafKey row.1

/-- The times of the rows that the store lists can be read. -/
def TimesRead (m : Medium SqlKey SqlDbRow) : Prop :=
  ∀ row ∈ m.entries.entries, t.store.Listed row.1 → ∃ death, t.store.deathTime row.2 = .ok death

/-- The rows past their time to the database, the longest dead first, or to the store. -/
def route (pushed : Bool) (m : Medium SqlKey SqlDbRow) (now : Option Instant) : Route (SqlKey × SqlDbRow) where
  met row := row ∈ m.entries.entries ∧
    if pushed then t.store.Finds (now.getD m.clock) row else t.store.Scores (now.getD m.clock) row
  sooner := if pushed then t.store.FindsFirst m.entries else t.store.ScoresFirst

/-- The rows past their time, found by the database or by the store. -/
def pastTime (pushed : Bool) (m : Medium SqlKey SqlDbRow) (now : Option Instant) : List (SqlKey × SqlDbRow) :=
  if pushed then (t.store.foundRows (now.getD m.clock) m.entries).map (·.2)
  else (t.store.scoredRows (now.getD m.clock) m.entries).map (·.2)

variable {t}

theorem expiredKeys_of_rows {pushed checked : Bool} {m : Medium SqlKey SqlDbRow} {now : Option Instant}
    {rows : List (SqlKey × SqlDbRow)} (h : ∀ limit : Int, 1 ≤ limit →
      ((t.store.scanning pushed).expiredRows checked now limit).run m = (.ok (rows.take limit.toNat), m)) :
    OldestExpired (t.dueAt m now) (fun limit => ((t.store.scanning pushed).expiredKeys checked now limit).run m) m ↔
      (t.dueAt m now).Told rows ∧ (t.dueAt m now).NamedFirst rows := by
  refine oldestExpired_of_cut fun limit hlimit => ?_
  unfold SqlDbKvBackend.expiredKeys
  rw [Script.run_bind, bind_ok (h limit hlimit)]
  rfl

theorem expiredKeys_error {pushed checked : Bool} {m : Medium SqlKey SqlDbRow} {now : Option Instant} {e : Exn}
    (h : ((t.store.scanning pushed).expiredRows checked now 1).run m = (.error e, m)) :
    ((t.store.scanning pushed).expiredKeys checked now 1).run m = (.error e, m) := by
  unfold SqlDbKvBackend.expiredKeys
  rw [Script.run_bind, bind_error h]

theorem pastTime_along (pushed : Bool) (m : Medium SqlKey SqlDbRow) (now : Option Instant) :
    (t.route pushed m now).Along (t.pastTime pushed m now) := by
  cases pushed with
  | true =>
    exact ⟨fun _ => SqlDbKvBackend.mem_found, SqlDbKvBackend.found_pairwise _ _,
      fun _ _ => SqlDbKvBackend.findsFirst_asymm⟩
  | false =>
    exact ⟨fun _ => SqlDbKvBackend.mem_scored, SqlDbKvBackend.scored_pairwise _ _,
      fun _ _ => SqlDbKvBackend.scoresFirst_asymm⟩

theorem expiredKeys_fits_iff (pushed checked : Bool) (m : Medium SqlKey SqlDbRow) (now : Option Instant) :
    OldestExpired (t.dueAt m now) (fun limit => ((t.store.scanning pushed).expiredKeys checked now limit).run m) m ↔
      ¬ t.store.Refuses checked m ∧ (pushed = false → t.TimesRead m) ∧
        (t.dueAt m now).Fits (t.route pushed m now) ∧ (t.dueAt m now).NamedSooner (t.route pushed m now) := by
  rw [← Search.told_iff_fits (t.pastTime_along pushed m now), ← Search.namedFirst_iff (t.pastTime_along pushed m now)]
  by_cases hrefuses : t.store.Refuses checked m
  · obtain ⟨e, he⟩ := SqlDbKvBackend.expiredRows_refused hrefuses now 1
    exact iff_of_false (not_oldestExpired (expiredKeys_error (he pushed))) fun h => h.1 hrefuses
  · rw [and_iff_right hrefuses]
    cases pushed with
    | true =>
      rw [expiredKeys_of_rows fun limit hlimit => SqlDbKvBackend.expiredRows_pushed hrefuses now hlimit]
      exact (and_iff_right fun h => nomatch h).symm
    | false =>
      have hlisted : ∀ row, row ∈ SqlRows.scanByKeyParts m.entries t.store.sqlKvset.keyFields t.store.scopeCells
          (t.store.leafPrefixMap none) ↔ row ∈ m.entries.entries ∧ t.store.Listed row.1 := by
        intro row
        unfold SqlRows.scanByKeyParts SqlRows.ordered SqlDbKvBackend.Listed
        rw [List.mem_mergeSort, List.mem_filter]
      by_cases hread : t.TimesRead m
      · rw [and_iff_right fun _ => hread]
        refine expiredKeys_of_rows fun limit hlimit => ?_
        have hreadable : ∀ row ∈ SqlRows.scanByKeyParts m.entries t.store.sqlKvset.keyFields t.store.scopeCells
            (t.store.leafPrefixMap none), ∃ death, t.store.deathTime row.2 = .ok death := by
          intro row hrow
          obtain ⟨hmem, hin⟩ := (hlisted row).mp hrow
          exact hread row hmem hin
        rw [SqlDbKvBackend.expiredRows_plain hrefuses now hlimit, SqlDbKvBackend.scoreExpired_readable hreadable]
        rfl
      · refine iff_of_false ?_ fun h => hread (h.1 rfl)
        have hplain := @SqlDbKvBackend.expiredRows_plain _ _ t.store checked m hrefuses now 1 (Int.le_refl 1)
        cases hscored : t.store.scoreExpired (now.getD m.clock) (SqlRows.scanByKeyParts m.entries
            t.store.sqlKvset.keyFields t.store.scopeCells (t.store.leafPrefixMap none)) with
        | error e =>
          rw [hscored] at hplain
          exact not_oldestExpired (expiredKeys_error hplain)
        | ok scored =>
          refine absurd (fun row hrow hin => ?_) hread
          exact SqlDbKvBackend.readable_of_scoreExpired hscored row ((hlisted row).mpr ⟨hrow, hin⟩)

end KeyedTable

/-! ## All three -/

namespace MemoryKvBackend

/-- A memory with two entries, written one after the other, and the times they expire at. -/
def twoExpiring (first second : Instant) : MemoryRoot Char String :=
  ((MemoryRoot.empty 7).put "items:v1" ['a'] "" (some first) 0).put "items:v1" ['b'] "" (some second) 0

theorem under_plain (p : List Char) : (plain String).Under p :=
  ⟨.empty, rfl, p, List.prefix_refl _, rfl⟩

theorem expiryAt_twoExpiring (first second : Instant) (p : List Char) :
    (plain String).expiryAt (twoExpiring first second) p =
      if p = ['b'] then some second else if p = ['a'] then some first else none := by
  unfold expiryAt entryAt twoExpiring
  show ((((_ : MemoryRoot Char String).put "items:v1" ['b'] "" (some second) 0).bucket "items:v1").get? p).bind _ = _
  rw [MemoryRoot.get?_put, MemoryRoot.get?_put]
  by_cases hb : p = ['b']
  · rw [if_pos hb, if_pos hb]
    rfl
  · rw [if_neg hb, if_neg hb]
    by_cases ha : p = ['a']
    · rw [if_pos ha, if_pos ha]
      rfl
    · rw [if_neg ha, if_neg ha]
      rfl

end MemoryKvBackend

end Kvtsjl
