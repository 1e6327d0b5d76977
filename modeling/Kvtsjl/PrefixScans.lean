import Kvtsjl.Answers
import Kvtsjl.Lib.Listing
import Kvtsjl.ObjectScan
import Kvtsjl.ReadingKeys
import Kvtsjl.ScanViews

/-
  Scans for a prefix, on the stores that keep the scope in the key.
  The prefix is put behind the text of the scope as its codec writes it. A leaf of a collection
  without a schema is escaped under a scope, and the prefix is not, so that a key with a separator
  is not found by a prefix with one (`prefixScan_iff`).
-/

namespace Kvtsjl

open Assoc (Dict)
open Delimited Effects Prog

/-! ## `scan(prefix)` -/

/-- `supports_prefix_scan` -/
def KeyLayout.supportsPrefixScan (layout : KeyLayout) : Bool := layout ≠ .hashed

section Scan

variable {S K V : Type} [DecidableEq K] [ScanKey K]

/-- `scan(prefix)`: the keys. -/
def LeafKvStore.scan (l : LeafKvStore S K V) (layout : KeyLayout) (pre : K) : M S (List K) :=
  if !layout.supportsPrefixScan then
    raise (.scanUnsupported ("prefix scan unsupported for layout " ++ layout.repr))
  else do
    let rows ← l.scanRows (.ofPrefix (some pre) .keys .unordered none 100)
    return rows.map fun row => row.key

theorem LeafKvStore.scan_hashed (l : LeafKvStore S K V) (pre : K) (s : S) :
    ∃ e, (l.scan .hashed pre s).1 = .error e := ⟨_, rfl⟩

/-- The keys are those of the rows the leaf lists. -/
theorem LeafKvStore.scan_run {l : LeafKvStore S K V} {layout : KeyLayout} (hlayout : layout ≠ .hashed)
    {pre : K} {compiled : CompiledScan S K V}
    (hcompiled : l.listing.compileScan (.ofPrefix (some pre) .keys .unordered none 100) = .ok compiled)
    {s : S} {rows : List (ScanRow K V)} (hrows : (compiled.rows s).1 = .ok rows) :
    (l.scan layout pre s).1 = .ok (rows.map fun row => row.key) := by
  have hkeys := ScanView.listedKeys_of_rows hcompiled hrows
  obtain ⟨given, s', hgiven, hlisted⟩ := ScanView.scanRows_ofPrefix (ScanView.leaf l) .unordered _ hkeys
  have hscan : l.scanRows (.ofPrefix (some pre) .keys .unordered none 100) s = (.ok given, s') := hgiven
  have hsupported : (!layout.supportsPrefixScan) = false := by
    unfold KeyLayout.supportsPrefixScan
    rw [Bool.not_eq_false', decide_eq_true_eq]
    exact hlayout
  unfold LeafKvStore.scan
  rw [hsupported, if_neg Bool.false_ne_true, bind_ok hscan, ← hlisted]
  rfl

omit [DecidableEq K] [ScanKey K] in
theorem ObjectListing.compileScan_of_literal {b : ObjectListing S K V} (h : b.keyLayout = .literal) (pre : K) :
    b.compileScan (.ofPrefix (some pre) .keys .unordered none 100) =
      .ok ⟨b.listedRows (some pre) false, .alwaysTrue⟩ := by
  unfold ObjectListing.compileScan
  rw [if_neg (not_not.mpr h)]
  rfl

omit [DecidableEq K] [ScanKey K] in
theorem ObjectListing.compileScan_of_ne {b : ObjectListing S K V} (h : b.keyLayout ≠ .literal)
    (spec : ScanSpec K V) : ∃ e, b.compileScan spec = .error e := by
  unfold ObjectListing.compileScan
  rw [if_pos h]
  exact ⟨_, rfl⟩

/-- The scan gave the live keys that start with the prefix, each once. -/
def YieldsExactly (result : Except Exn (List K)) (live : K → Prop) (pre : K) : Prop :=
  ∃ keys, result = .ok keys ∧ keys.Nodup ∧ ∀ k, k ∈ keys ↔ live k ∧ ScanKey.startsWith k pre = true

end Scan

/-! ## Leaves behind a scope -/

namespace KvBackend

variable {K V α VB : Type} [DecidableEq α] (b : KvBackend K V α VB)

/-- What every key of the view begins with, the separator before its leaf included. -/
def front : List α :=
  if b.prefixParts = [] then [] else b.kvset.joinParts b.prefixParts ++ b.kvset.wire.codes.sep

theorem itemKeyBlob_eq (leaf : List α) : b.itemKeyBlob leaf = b.front ++ leaf := by
  unfold itemKeyBlob front
  split
  · next hnil =>
    rw [hnil]
    rfl
  · next hne =>
    unfold KvSet.joinParts
    rw [join_append _ hne (by simp), List.append_assoc]
    rfl

theorem scanPrefixBlob_some (pre : K) :
    b.scanPrefixBlob (some pre) = b.itemKeyBlob (b.kvset.keySerde.serialize pre) := rfl

theorem itemKeyBlob_injective : Function.Injective b.itemKeyBlob :=
  fun _ _ h => join_last_injective _ _ h

theorem itemKeyBlob_prefix_iff {leaf leaf' : List α} :
    b.itemKeyBlob leaf <+: b.itemKeyBlob leaf' ↔ leaf <+: leaf' := by
  rw [itemKeyBlob_eq, itemKeyBlob_eq]
  exact List.prefix_append_right_inj _

/-- A leaf as the view reads it. -/
def leafRead (leaf : List α) : Option K :=
  if b.scope.segments = [] then b.kvset.keySerde.deserialize leaf
  else if leaf = [] then none
  else b.kvset.keySerde.deserialize (b.kvset.maybeUnescape leaf b.scope)

theorem decodeKeyFromPhysical_item (leaf : List α) :
    b.decodeKeyFromPhysical (b.itemKeyBlob leaf) = b.leafRead leaf := by
  rw [itemKeyBlob_eq_join, decodeKeyFromPhysical_join]
  unfold KvSet.decodeLeafFromInKey leafRead
  by_cases hempty : b.scope.segments = []
  · have hparts : b.kvset.scopeParts b.scope = [] := by
      unfold KvSet.scopeParts
      rw [hempty]
      rfl
    have hplain : b.kvset.maybeUnescape leaf b.scope = leaf := by
      unfold KvSet.maybeUnescape
      rw [if_neg fun hboth => hboth.2 hempty]
    rw [if_pos hempty, if_pos hempty, hparts]
    show b.kvset.keySerde.deserialize (b.kvset.maybeUnescape leaf b.scope) = _
    rw [hplain]
  · have hne : b.kvset.scopeParts b.scope ≠ [] := by
      intro hnil
      rcases hscope : b.scope with ⟨_ | ⟨g, gs⟩⟩
      · exact hempty (by rw [hscope])
      · rw [hscope] at hnil
        simp [KvSet.scopeParts] at hnil
    rw [if_neg hempty, if_neg hempty]
    unfold KvSet.joinParts
    rw [join_append _ hne (by simp), stripPrefix_append]
    have hlast : join b.kvset.wire.codes.sep [leaf] = leaf := rfl
    show (if b.kvset.stripSep (b.kvset.wire.codes.sep ++ join b.kvset.wire.codes.sep [leaf]) = [] then none
      else _) = _
    rw [hlast, KvSet.stripSep_append]

/-- The leaf of a key, escaped where the collection declares no schema and the view has a scope. -/
def ownLeaf (key : K) : List α :=
  b.leafBlob key (decide (b.kvset.scopeSchema = none ∧ b.scope.segments ≠ []))

/-- Under a part of the declared scope no key is written, but keys are shown all the same. -/
def keyBlob (key : K) : List α := b.itemKeyBlob (b.ownLeaf key)

/-- A key is written at its blob, if it is written at all. -/
theorem physicalKeyBlob_eq_keyBlob {key : K} {p : List α} (h : b.physicalKeyBlob key = .ok p) :
    p = b.keyBlob key := by
  unfold physicalKeyBlob at h
  cases he : b.kvset.leafNeedsEscaping b.scope with
  | error e =>
    rw [he] at h
    cases h
  | ok escaped =>
    rw [he] at h
    have hescaped : escaped = decide (b.kvset.scopeSchema = none ∧ b.scope.segments ≠ []) := by
      unfold KvSet.leafNeedsEscaping at he
      cases hs : b.kvset.scopeSchema with
      | none =>
        rw [hs] at he
        rw [← Except.ok.inj he]
        cases b.scope.segments <;> rfl
      | some schema =>
        rw [hs] at he
        dsimp only at he
        split at he
        · cases he
        · rw [← Except.ok.inj he]
          rfl
    unfold keyBlob ownLeaf
    rw [← hescaped]
    exact (Except.ok.inj h).symm

/-- Two views of one collection that write keys at one place write one key, in one scope, or the keys merge. -/
theorem physicalKeyBlob_merges {b b' : KvBackend K V α VB}
    (hk : b'.kvset = b.kvset) (hb : b'.binding = b.binding) {key key' : K} {blob : List α}
    (he : b.physicalKeyBlob key = .ok blob) (he' : b'.physicalKeyBlob key' = .ok blob) :
    (b.scope = b'.scope ∧ key = key') ∨
      b.kvset.wire.Merges b.scope.segments (b.ownLeaf key) b'.scope.segments (b'.ownLeaf key') := by
  have hplace := (physicalKeyBlob_eq_keyBlob _ he).symm.trans (physicalKeyBlob_eq_keyBlob _ he')
  unfold keyBlob at hplace
  rw [itemKeyBlob_eq_join, itemKeyBlob_eq_join, hk, hb] at hplace
  rcases b.kvset.wire.key_eq_iff.mp (join_last_injective _ _ hplace) with ⟨hsegments, -⟩ | hmerges
  · obtain ⟨kvset, scope, binding, valid⟩ := b
    obtain ⟨kvset', scope', binding', valid'⟩ := b'
    obtain rfl : kvset' = kvset := hk
    obtain rfl : binding' = binding := hb
    obtain rfl : scope = scope' := congrArg Scope.mk hsegments
    exact .inl ⟨rfl, physicalKeyBlob_injective _ he he'⟩
  · exact .inr hmerges

/-- A leaf is found under the prefix, and shown as the key. -/
def Shows (pre : K) (leaf : List α) (k : K) : Prop :=
  b.kvset.keySerde.serialize pre <+: leaf ∧ b.leafRead leaf = some k

/-- A key's own leaf is read as it, unless it is empty under a scope. -/
theorem leafRead_ownLeaf (k : K) :
    b.leafRead (b.ownLeaf k) = some k ↔ (b.scope.segments ≠ [] → b.ownLeaf k ≠ []) := by
  unfold leafRead
  by_cases hempty : b.scope.segments = []
  · have hleaf : b.ownLeaf k = b.kvset.keySerde.serialize k := by
      unfold ownLeaf
      rw [decide_eq_false fun hboth => hboth.2 hempty]
      rfl
    rw [if_pos hempty, hleaf]
    exact iff_of_true (b.kvset.keySerde.roundtrip k) fun hne => absurd hempty hne
  · rw [if_neg hempty]
    by_cases hnil : b.ownLeaf k = []
    · rw [if_pos hnil]
      exact iff_of_false (by simp) fun h => h hempty hnil
    · rw [if_neg hnil]
      refine iff_of_true ?_ fun _ => hnil
      unfold KvSet.maybeUnescape ownLeaf
      by_cases hschema : b.kvset.scopeSchema = none
      · rw [if_pos ⟨hschema, hempty⟩, decide_eq_true ⟨hschema, hempty⟩]
        show b.kvset.keySerde.deserialize (b.kvset.wire.codes.unescape (b.kvset.wire.codes.escape _)) = _
        rw [b.kvset.wire.codes.unescape_escape]
        exact b.kvset.keySerde.roundtrip k
      · rw [if_neg fun hboth => hschema hboth.1, decide_eq_false fun hboth => hschema hboth.1]
        exact b.kvset.keySerde.roundtrip k

/-- A key's own leaf is shown unless it does not begin with the prefix as it is, or is empty under
    a scope. -/
theorem shows_own (pre k : K) : b.Shows pre (b.ownLeaf k) k ↔
    b.kvset.keySerde.serialize pre <+: b.ownLeaf k ∧ (b.scope.segments ≠ [] → b.ownLeaf k ≠ []) :=
  and_congr_right fun _ => b.leafRead_ownLeaf k

/-- What a blob is shown as under the prefix. -/
def shownUnder (pre : K) (blob : List α) : Option K :=
  if b.scanPrefixBlob (some pre) <+: blob then b.decodeKeyFromPhysical blob else none

theorem shownUnder_eq_some {pre k : K} {blob : List α} : b.shownUnder pre blob = some k ↔
    ∃ leaf, blob = b.itemKeyBlob leaf ∧ b.Shows pre leaf k := by
  unfold shownUnder
  rw [scanPrefixBlob_some]
  constructor
  · intro h
    split at h
    · next hfound =>
      obtain ⟨rest, hrest⟩ := hfound
      have hblob : blob = b.itemKeyBlob (b.kvset.keySerde.serialize pre ++ rest) := by
        rw [← hrest, itemKeyBlob_eq, itemKeyBlob_eq, List.append_assoc]
      rw [hblob, decodeKeyFromPhysical_item] at h
      exact ⟨_, hblob, List.prefix_append _ _, h⟩
    · cases h
  · intro ⟨leaf, hblob, hfound, hread⟩
    rw [hblob, if_pos (b.itemKeyBlob_prefix_iff.mpr hfound), decodeKeyFromPhysical_item]
    exact hread

/-! ### Exactness -/

section Exact

variable {P : Type}

/-- A place is shown as a key: `blobAt` is the blob that a listing for the prefix finds at it. -/
def ShowsAt (blobAt : P → Option (List α)) (pre : K) (p : P) (k : K) : Prop :=
  ∃ leaf, blobAt p = some (b.itemKeyBlob leaf) ∧ b.Shows pre leaf k

/-- A live place that is shown as a key of another place. -/
def Stray (live : P → Prop) (blobAt : P → Option (List α)) (own : K → P) (pre : K) (p : P) (k : K) : Prop :=
  live p ∧ b.ShowsAt blobAt pre p k ∧ p ≠ own k

/-- When a scan for a prefix is exact. A key's own place is shown only if the key starts with the
    prefix. A place that is shown as a key of another place stands in for it: that key is live and
    starts with the prefix, its own place is not shown, and no third place is shown as it. And every
    live key that starts with the prefix is shown by its own place or has such a stand-in. -/
structure PrefixExact [ScanKey K] (live : P → Prop) (blobAt : P → Option (List α)) (own : K → P) (pre : K) :
    Prop where
  begins : ∀ k, live (own k) → b.ShowsAt blobAt pre (own k) k → ScanKey.startsWith k pre = true
  missed : ∀ k, live (own k) → ScanKey.startsWith k pre = true → ¬ b.ShowsAt blobAt pre (own k) k →
    ∃ p, b.Stray live blobAt own pre p k
  strays : ∀ p k, b.Stray live blobAt own pre p k → live (own k) ∧ ScanKey.startsWith k pre = true ∧
    ¬ b.ShowsAt blobAt pre (own k) k ∧ ∀ p', b.Stray live blobAt own pre p' k → p' = p

/-- Keys listed from places, some of them perhaps twice. -/
theorem exact_iff_once [ScanKey K] {live : P → Prop} {blobAt : P → Option (List α)} {own : K → P} {pre : K}
    {places : List P} (hlive : ∀ p, p ∈ places ↔ live p) :
    Listing.Exact places (fun p => (blobAt p).bind (b.shownUnder pre)) own
      (fun k => ScanKey.startsWith k pre = true) ↔
        (places.filter fun p => ((blobAt p).bind (b.shownUnder pre)).isSome).Nodup ∧
          b.PrefixExact live blobAt own pre := by
  have hshown : ∀ p k, (blobAt p).bind (b.shownUnder pre) = some k ↔ b.ShowsAt blobAt pre p k := by
    intro p k
    rw [Option.bind_eq_some_iff]
    simp only [shownUnder_eq_some]
    constructor
    · intro ⟨blob, hblob, leaf, hleaf, hshows⟩
      exact ⟨leaf, hleaf ▸ hblob, hshows⟩
    · intro ⟨leaf, hblob, hshows⟩
      exact ⟨_, hblob, leaf, rfl, hshows⟩
  have hstray : ∀ p k, Listing.Stray places (fun p => (blobAt p).bind (b.shownUnder pre)) own p k ↔
      b.Stray live blobAt own pre p k := by
    intro p k
    unfold Listing.Stray Stray
    rw [hlive, hshown]
  rw [Listing.shows_iff]
  simp only [hstray, hlive, ne_eq, hshown]
  refine and_congr_right fun _ => ?_
  constructor
  · intro ⟨hbegins, hmissed, hstrays⟩
    exact ⟨hbegins, hmissed, hstrays⟩
  · intro ⟨hbegins, hmissed, hstrays⟩
    exact ⟨hbegins, hmissed, hstrays⟩

theorem exact_iff [ScanKey K] {live : P → Prop} {blobAt : P → Option (List α)} {own : K → P} {pre : K}
    {places : List P} (hnodup : places.Nodup) (hlive : ∀ p, p ∈ places ↔ live p) :
    Listing.Exact places (fun p => (blobAt p).bind (b.shownUnder pre)) own
      (fun k => ScanKey.startsWith k pre = true) ↔ b.PrefixExact live blobAt own pre := by
  rw [b.exact_iff_once hlive]
  exact and_iff_right (hnodup.filter _)

/-- Only what is shown matters. -/
theorem prefixExact_congr [ScanKey K] {live : P → Prop} {blobAt blobAt' : P → Option (List α)} {own : K → P}
    {pre : K} (h : ∀ p k, b.ShowsAt blobAt pre p k ↔ b.ShowsAt blobAt' pre p k) :
    b.PrefixExact live blobAt own pre ↔ b.PrefixExact live blobAt' own pre := by
  have hstray : ∀ p k, b.Stray live blobAt own pre p k ↔ b.Stray live blobAt' own pre p k := by
    intro p k
    unfold Stray
    rw [h]
  constructor
  · intro ⟨hbegins, hmissed, hstrays⟩
    simp only [h, hstray] at hbegins hmissed hstrays
    exact ⟨hbegins, hmissed, hstrays⟩
  · intro ⟨hbegins, hmissed, hstrays⟩
    simp only [← h, ← hstray] at hbegins hmissed hstrays
    exact ⟨hbegins, hmissed, hstrays⟩

variable {b}

/-- Where all that is live are the scope's own keys, nothing can stand in for another. -/
theorem prefixExact_of_own [ScanKey K] {live : P → Prop} {blobAt : P → Option (List α)} {own : K → P}
    {pre : K} (howns : ∀ p, live p → ∃ k, p = own k)
    (hself : ∀ k k', live (own k) → b.ShowsAt blobAt pre (own k) k' → k' = k)
    (hshows : ∀ k, live (own k) → (b.ShowsAt blobAt pre (own k) k ↔ ScanKey.startsWith k pre = true)) :
    b.PrefixExact live blobAt own pre := by
  refine ⟨fun k hlive => (hshows k hlive).mp, fun k hlive hstarts hmissed => ?_, fun p k hstray => ?_⟩
  · exact absurd ((hshows k hlive).mpr hstarts) hmissed
  · obtain ⟨hlive, hshown, hne⟩ := hstray
    obtain ⟨k', rfl⟩ := howns p hlive
    exact absurd (by rw [hself k' k hlive hshown]) hne

end Exact

end KvBackend

/-! ## A memory store -/

namespace MemoryKvBackend

variable {K V α VB : Type} [DecidableEq α] (b : MemoryKvBackend K V α VB)

/-- An entry that has not expired is kept there. -/
def LiveAt (r : MemoryRoot α VB) (p : List α) : Prop :=
  ∃ e, b.entryAt r p = some e ∧ expired e r.clock = false

instance (r : MemoryRoot α VB) (p : List α) : Decidable (b.LiveAt r p) :=
  decidable_of_iff ((b.entryAt r p).any fun e => !expired e r.clock) (by simp [LiveAt, Option.any_eq_true])

/-- The clock and the live entries are as they were. -/
def SamePlaces (r r' : MemoryRoot α VB) : Prop :=
  r'.clock = r.clock ∧ ∀ p e, expired e r.clock = false → (b.entryAt r' p = some e ↔ b.entryAt r p = some e)

theorem SamePlaces.liveAt {r r' : MemoryRoot α VB} (h : b.SamePlaces r r') (p : List α) :
    b.LiveAt r' p ↔ b.LiveAt r p := by
  unfold LiveAt
  rw [h.1]
  exact exists_congr fun e => and_congr_left fun hlive => h.2 p e hlive

theorem SamePlaces.trans {r r' r'' : MemoryRoot α VB} (h : b.SamePlaces r r') (h' : b.SamePlaces r' r'') :
    b.SamePlaces r r'' :=
  ⟨h'.1.trans h.1, fun p e hlive => (h'.2 p e (by rw [h.1]; exact hlive)).trans (h.2 p e hlive)⟩

theorem samePlaces_lazyDelete {r : MemoryRoot α VB} {p : List α} {e : Entry VB}
    (h : b.entryAt r p = some e) (hexpired : expired e r.clock = true) :
    ∃ r', b.lazyDelete p r = (.ok (), r') ∧ b.SamePlaces r r' := by
  unfold lazyDelete
  by_cases hgc : b.expiryGc = .lazyDelete
  · rw [Prog.when, if_pos hgc]
    refine ⟨_, rfl, rfl, fun q e' hlive => ?_⟩
    show ((r.pop b.collection p).bucket b.collection).get? q = some e' ↔ _
    rw [MemoryRoot.get?_pop]
    split
    · next hq =>
      refine iff_of_false (by simp) fun he' => ?_
      rw [hq, h] at he'
      rw [← Option.some.inj he', hexpired] at hlive
      cases hlive
    · rfl
  · rw [Prog.when, if_neg hgc]
    exact ⟨r, rfl, rfl, fun _ _ _ => Iff.rfl⟩

theorem scanOne_run (pre : K) (n : Nat) (p : List α) (r : MemoryRoot α VB) :
    (b.scanOne ⟨some pre, false, n⟩ p r).1 =
        .ok (if b.LiveAt r p then (b.shownUnder pre p).map fun k => (k, none) else none) ∧
      b.SamePlaces r (b.scanOne ⟨some pre, false, n⟩ p r).2 := by
  have hrefl : b.SamePlaces r r := ⟨rfl, fun _ _ _ => Iff.rfl⟩
  unfold scanOne
  rw [bind_apply, read_apply]
  dsimp only
  cases h : b.entryAt r p with
  | none =>
    have hdead : ¬ b.LiveAt r p := by
      intro ⟨e, he, _⟩
      rw [h] at he
      cases he
    rw [if_neg hdead]
    exact ⟨rfl, hrefl⟩
  | some e =>
    dsimp only
    cases hexpired : expired e r.clock with
    | true =>
      have hdead : ¬ b.LiveAt r p := by
        intro ⟨e', he', hlive⟩
        rw [h] at he'
        rw [← Option.some.inj he', hexpired] at hlive
        cases hlive
      obtain ⟨r', hrun, hsame⟩ := b.samePlaces_lazyDelete h hexpired
      rw [if_pos rfl, if_neg hdead, bind_ok hrun]
      exact ⟨rfl, hsame⟩
    | false =>
      have hlive : b.LiveAt r p := ⟨e, h, hexpired⟩
      rw [if_neg Bool.false_ne_true, if_pos hlive]
      unfold KvBackend.shownUnder
      by_cases hfound : b.scanPrefixBlob (some pre) <+: p
      · rw [if_neg (not_not.mpr hfound), if_pos hfound]
        cases b.decodeKeyFromPhysical p with
        | none => exact ⟨rfl, hrefl⟩
        | some key => exact ⟨rfl, hrefl⟩
      · rw [if_pos hfound, if_neg hfound]
        exact ⟨rfl, hrefl⟩

theorem mapM_scanOne_run (pre : K) (n : Nat) (ps : List (List α)) (r : MemoryRoot α VB) :
    ∀ t, b.SamePlaces r t → (ps.mapM (b.scanOne ⟨some pre, false, n⟩) t).1 =
      .ok (ps.map fun p => if b.LiveAt r p then (b.shownUnder pre p).map fun k => (k, none) else none) := by
  induction ps with
  | nil => exact fun t _ => rfl
  | cons p ps ih =>
    intro t ht
    obtain ⟨hok, hsame⟩ := b.scanOne_run pre n p t
    have hrest := ih _ (ht.trans b hsame)
    rw [List.mapM_cons, bind_ok (Prod.ext hok rfl), bind_ok (Prod.ext hrest rfl), List.map_cons,
      if_congr (ht.liveAt b p) rfl rfl]
    rfl

/-- The places a scan lists: the live ones, in the order of the bucket. -/
def livePlaces (r : MemoryRoot α VB) : List (List α) :=
  (r.bucket b.collection).keys.filter fun p => decide (b.LiveAt r p)

theorem mem_livePlaces {r : MemoryRoot α VB} {p : List α} : p ∈ b.livePlaces r ↔ b.LiveAt r p := by
  unfold livePlaces
  rw [List.mem_filter, decide_eq_true_eq, and_iff_right_iff_imp, Dict.mem_keys]
  exact fun ⟨e, he, _⟩ => ⟨e, he⟩

theorem scanEntries_run (pre : K) (n : Nat) (r : MemoryRoot α VB) :
    (b.scanEntries ⟨some pre, false, n⟩ r).1 =
      .ok ((b.livePlaces r).filterMap fun p => (b.shownUnder pre p).map fun k => (k, none)) := by
  have hrows := b.mapM_scanOne_run pre n (r.bucket b.collection).keys r r ⟨rfl, fun _ _ _ => Iff.rfl⟩
  unfold scanEntries
  rw [bind_apply, read_apply]
  dsimp only
  rw [bind_ok (Prod.ext hrows rfl)]
  show (Except.ok _ : Except Exn _) = _
  unfold livePlaces
  rw [List.filterMap_map, List.filterMap_filter]
  refine congrArg _ (List.filterMap_congr fun p _ => ?_)
  by_cases hlive : b.LiveAt r p
  · simp [hlive]
  · simp [hlive]

variable [DecidableEq K] [ScanKey K]

/-- A memory store gives exactly the live keys with a prefix where `PrefixExact` says so. -/
theorem scan_exact_iff (r : MemoryRoot α VB) (pre : K) :
    YieldsExactly (b.leafStore.scan b.kvset.keyLayout pre r).1 (fun k => b.LiveAt r (b.keyBlob k)) pre ↔
      b.kvset.keyLayout ≠ .hashed ∧ b.PrefixExact (b.LiveAt r) some b.keyBlob pre := by
  by_cases hlayout : b.kvset.keyLayout = .hashed
  · refine iff_of_false ?_ fun h => h.1 hlayout
    intro ⟨keys, hkeys, _⟩
    obtain ⟨e, he⟩ := b.leafStore.scan_hashed pre r
    rw [hlayout, he] at hkeys
    cases hkeys
  · have hnodup : (b.livePlaces r).Nodup := (r.bucket b.collection).nodup.filter _
    have hcompiled : b.leafStore.listing.compileScan (.ofPrefix (some pre) .keys .unordered none 100) =
        .ok ⟨do
          let entries ← b.scanEntries ⟨some pre, false, 100⟩
          return afterCursor none (entries.map fun e => ⟨e.1, e.2, none⟩), .alwaysTrue⟩ := rfl
    have hrows : ((do
        let entries ← b.scanEntries ⟨some pre, false, 100⟩
        return afterCursor none (entries.map fun e => ⟨e.1, e.2, none⟩) :
          M (MemoryRoot α VB) (List (ScanRow K V))) r).1 =
        .ok ((b.livePlaces r).filterMap fun p => (b.shownUnder pre p).map fun k => ⟨k, none, none⟩) := by
      rw [bind_ok (Prod.ext (b.scanEntries_run pre 100 r) rfl)]
      show (Except.ok (List.map _ _) : Except Exn _) = _
      rw [List.map_filterMap]
      simp only [Option.map_map]
      rfl
    have hscan := LeafKvStore.scan_run hlayout hcompiled hrows
    have hkeys : (b.leafStore.scan b.kvset.keyLayout pre r).1 =
        .ok ((b.livePlaces r).filterMap (b.shownUnder pre)) := by
      rw [hscan, List.map_filterMap]
      refine congrArg _ (List.filterMap_congr fun p _ => ?_)
      cases b.shownUnder pre p <;> rfl
    have hexact : Listing.Exact (b.livePlaces r) (fun p => (some p).bind (b.shownUnder pre)) b.keyBlob
        (fun k => ScanKey.startsWith k pre = true) ↔ b.PrefixExact (b.LiveAt r) some b.keyBlob pre :=
      b.exact_iff hnodup fun p => b.mem_livePlaces
    rw [← hexact]
    unfold YieldsExactly Listing.Exact
    simp only [mem_livePlaces, Option.bind_some]
    constructor
    · intro ⟨keys, hok, hboth⟩
      rw [hkeys] at hok
      rw [Except.ok.inj hok]
      exact ⟨hlayout, hboth⟩
    · intro ⟨_, hboth⟩
      exact ⟨_, hkeys, hboth⟩

end MemoryKvBackend

/-! ## An object store -/

/-- A wire whose characters are read one by one. -/
structure ScanWire (α : Type) extends BlobWire α where
  chars_append : ∀ blob rest, chars (blob ++ rest) = chars blob ++ chars rest

def ScanWire.str : ScanWire Char where
  toBlobWire := BlobWire.str
  chars_append _ _ := rfl

def ScanWire.bytes : ScanWire UInt8 where
  toBlobWire := BlobWire.bytes
  chars_append _ _ := List.map_append

theorem quote_append (text rest : List Char) : quote (text ++ rest) = quote text ++ quote rest := by
  unfold quote utf8 Percent.encode
  rw [List.flatMap_append, List.flatMap_append]

namespace KeyCodec

variable {K V α VB : Type} [DecidableEq α] (w : ScanWire α) (sha256 : List UInt8 → List Char)
  (c : KeyCodec K V α VB)

/-- `listing_prefix` -/
def listingPrefix (pre : Option K) : Except Exn (List Char) :=
  (encodePath w.toPathWire sha256 c.kvset.keyLayout (c.scanPrefixBlob pre)).map fun rel =>
    c.collectionPrefix ++ rel

/-- `decode_if_prefix` -/
def decodeIfPrefix (physical : List Char) (pre : Option K) : Option K := do
  let pk ← c.blobFromPhysical w.toBlobWire physical
  if c.scanPrefixBlob pre <+: pk then c.decodeKeyFromPhysical pk else none

/-- The store, its keys laid out by the codec. -/
def objectStore (b : ObjectStoreKvBackend K V) : ObjectStoreKvBackend K V :=
  { b with
    keyLayout := c.kvset.keyLayout
    encodePhysical := fun key => (c.encodePhysical w.toPathWire sha256 key).map String.ofList
    decodeIfPrefix := fun physical pre => c.decodeIfPrefix w physical.toList pre
    listingPrefix := fun pre => (c.listingPrefix w sha256 pre).map String.ofList }

/-- The object of a blob under a `LITERAL` layout, or what the objects of blobs with it begin with. -/
def literalPath (blob : List α) : String := String.ofList (c.collectionPrefix ++ quote (w.chars blob))

/-- The blob of an object that a listing for the prefix comes to. -/
def listedBlob (pre : K) (physical : String) : Option (List α) :=
  if physical.startsWith (c.literalPath w (c.scanPrefixBlob (some pre))) then
    c.blobFromPhysical w.toBlobWire physical.toList
  else none

variable {w c}

theorem literalPath_startsWith {blob blob' : List α} (h : blob <+: blob') :
    (c.literalPath w blob').startsWith (c.literalPath w blob) = true := by
  obtain ⟨rest, rfl⟩ := h
  rw [String.startsWith_string_iff]
  unfold literalPath
  rw [String.toList_ofList, String.toList_ofList, w.chars_append, quote_append, ← List.append_assoc]
  exact List.prefix_append _ _

theorem blobFromPhysical_literalPath (h : c.kvset.keyLayout = .literal) (blob : List α) :
    c.blobFromPhysical w.toBlobWire (c.literalPath w blob).toList = some blob := by
  obtain ⟨rel, hrel, hback⟩ := decodePath_encodePath w.toBlobWire (fun _ => []) blob
  have hpath : rel = quote (w.chars blob) := (Except.ok.inj hrel).symm
  unfold blobFromPhysical literalPath
  rw [String.toList_ofList, stripPrefix_append, h, ← hpath, Option.bind_eq_bind, Option.bind_some, hback]

/-- A key's own object is shown unless its leaf does not begin with the prefix, or is empty or not
    read as the key under a scope. -/
theorem showsAt_own (h : c.kvset.keyLayout = .literal) (pre k : K) :
    c.ShowsAt (c.listedBlob w pre) pre (c.literalPath w (c.inKeyBlob k)) k ↔
      c.kvset.keySerde.serialize pre <+: c.kvset.keySerde.serialize k ∧
        (c.scope.segments ≠ [] → c.kvset.keySerde.serialize k ≠ [] ∧
          (c.kvset.scopeSchema = none → ReadUnescaped c.kvset k)) := by
  have hread : c.leafRead (c.kvset.keySerde.serialize k) = some k ↔
      (c.scope.segments ≠ [] → c.kvset.keySerde.serialize k ≠ [] ∧
        (c.kvset.scopeSchema = none → ReadUnescaped c.kvset k)) := by
    rw [← c.decodeKeyFromPhysical_item, c.itemKeyBlob_eq_join, c.decodeKeyFromPhysical_join]
    exact c.kvset.decode_plainInKey_iff c.scope k
  rw [← hread]
  constructor
  · intro ⟨leaf, hblob, hshows⟩
    unfold listedBlob at hblob
    split at hblob
    · rw [blobFromPhysical_literalPath h] at hblob
      rw [c.itemKeyBlob_injective (Option.some.inj hblob)]
      exact hshows
    · cases hblob
  · intro hshows
    refine ⟨_, ?_, hshows⟩
    have hstarts : c.scanPrefixBlob (some pre) <+: c.inKeyBlob k := c.itemKeyBlob_prefix_iff.mpr hshows.1
    unfold listedBlob
    rw [if_pos (literalPath_startsWith hstarts), blobFromPhysical_literalPath h]
    rfl

end KeyCodec

namespace ObjectStoreKvBackend

variable {K V : Type} (b : ObjectStoreKvBackend K V)

/-- An object that has not expired is kept there. -/
def LiveAt (m : Medium String Blob) (p : String) : Prop :=
  ∃ blob, m.entries.get? p = some blob ∧ b.isExpired blob.stat m.clock = false

/-- The live objects. -/
def livePlaces (m : Medium String Blob) : List String :=
  (m.entries.entries.filter fun x => !b.isExpired x.2.stat m.clock).map Prod.fst

theorem mem_livePlaces {m : Medium String Blob} {p : String} : p ∈ b.livePlaces m ↔ b.LiveAt m p := by
  unfold livePlaces LiveAt
  rw [List.mem_map]
  constructor
  · intro ⟨x, hx, hp⟩
    obtain ⟨hmem, hlive⟩ := List.mem_filter.mp hx
    rw [Bool.not_eq_true'] at hlive
    exact ⟨x.2, hp ▸ Dict.mem_entries.mp hmem, hlive⟩
  · intro ⟨blob, hget, hlive⟩
    exact ⟨(p, blob), List.mem_filter.mpr ⟨Dict.mem_entries.mpr hget, by rw [hlive]; rfl⟩, rfl⟩

theorem nodup_livePlaces (m : Medium String Blob) : (b.livePlaces m).Nodup :=
  m.entries.nodup.sublist (List.filter_sublist.map _)

/-- The keys an object store lists are those its live objects are read as, in the order of the objects, whatever
    the cursor. -/
theorem listedKeys_leafStore [DecidableEq K] [ScanKey K] (hliteral : b.keyLayout = .literal)
    (hpage : 1 ≤ b.driver.listPageSize) {pages : Nat} {m : Medium String Blob}
    (hpages : m.entries.entries.length < pages) {pre : Option K} {listing : String}
    (hlisting : b.listingPrefix pre = .ok listing) {project : Projection} (hproject : project ≠ .entries)
    (cursor : Option String) (pageSize : Nat) :
    (ScanView.leaf (b.leafStore pages)).listedKeys m pre project cursor pageSize =
      some (((listed listing none m.entries).filterMap (b.listedRow pre m.clock)).map fun row => row.key) := by
  have hcompiled : (b.leafStore pages).listing.compileScan (.ofPrefix pre project .unordered cursor pageSize) =
      .ok ⟨(b.listing pages).listedRows pre false, .alwaysTrue⟩ := by
    have hlayout : (b.listing pages).keyLayout = .literal := hliteral
    show (b.listing pages).compileScan _ = _
    unfold ObjectListing.compileScan
    rw [if_neg (not_not.mpr hlayout), ← decide_eq_false hproject]
    cases pre <;> rfl
  obtain ⟨m', hlisted⟩ := b.iterListedRows_run hpage listing pre hpages
  refine ScanView.listedKeys_of_rows hcompiled ?_
  show ((ofExcept (b.listingPrefix pre) >>= _ : M _ _) m).1 = _
  rw [hlisting]
  exact congrArg Prod.fst hlisted

end ObjectStoreKvBackend

namespace KeyCodec

variable {K V α VB : Type} [DecidableEq α] [DecidableEq K] [ScanKey K] (w : ScanWire α)
  (sha256 : List UInt8 → List Char) (c : KeyCodec K V α VB)

omit [DecidableEq K] [ScanKey K] in
/-- The keys listed are those the live places show. -/
theorem listedKeys_perm (b : ObjectStoreKvBackend K V) (pre : K) (m : Medium String Blob) :
    (((ObjectStoreKvBackend.listed (c.literalPath w (c.scanPrefixBlob (some pre))) none m.entries).filterMap
      ((c.objectStore w sha256 b).listedRow (some pre) m.clock)).map fun row => row.key).Perm
    ((b.livePlaces m).filterMap fun p => (c.listedBlob w pre p).bind (c.shownUnder pre)) := by
  unfold ObjectStoreKvBackend.listed ObjectStoreKvBackend.livePlaces
  rw [List.map_filterMap, List.filterMap_map, List.filterMap_filter]
  refine ((List.mergeSort_perm _ _).filterMap _).trans ?_
  rw [List.filterMap_filter]
  refine List.Perm.of_eq (List.filterMap_congr fun x _ => ?_)
  have hexpired : (c.objectStore w sha256 b).isExpired x.2.stat m.clock = b.isExpired x.2.stat m.clock := rfl
  unfold ObjectStoreKvBackend.listedRow
  rw [hexpired, Option.all_none, Bool.and_true]
  dsimp only [Function.comp]
  cases hlive : b.isExpired x.2.stat m.clock with
  | true =>
    rw [if_pos rfl]
    split <;> rfl
  | false =>
    rw [if_neg Bool.false_ne_true]
    unfold listedBlob
    by_cases hstarts : x.1.startsWith (c.literalPath w (c.scanPrefixBlob (some pre))) = true
    · rw [if_pos hstarts, if_pos hstarts, Option.map_map]
      show Option.map id (c.decodeIfPrefix w x.1.toList (some pre)) = _
      rw [Option.map_id]
      rfl
    · rw [if_neg hstarts, if_neg hstarts]
      rfl

/-- An object store gives exactly the live keys with a prefix where the layout is `LITERAL` and
    `PrefixExact` says so. -/
theorem scan_exact_iff (b : ObjectStoreKvBackend K V) (hpage : 1 ≤ b.driver.listPageSize)
    {pages : Nat} {m : Medium String Blob} (hpages : m.entries.entries.length < pages) (pre : K) :
    YieldsExactly (((c.objectStore w sha256 b).leafStore pages).scan c.kvset.keyLayout pre m).1
        (fun k => ∃ p, (c.objectStore w sha256 b).encodePhysical k = .ok p ∧ b.LiveAt m p) pre ↔
      c.kvset.keyLayout = .literal ∧ c.PrefixExact (b.LiveAt m) (c.listedBlob w pre)
        (fun k => c.literalPath w (c.inKeyBlob k)) pre := by
  by_cases hlayout : c.kvset.keyLayout = .literal
  · have hcompiled : ((c.objectStore w sha256 b).leafStore pages).listing.compileScan
        (.ofPrefix (some pre) .keys .unordered none 100) =
        .ok ⟨((c.objectStore w sha256 b).listing pages).listedRows (some pre) false, .alwaysTrue⟩ :=
      ObjectListing.compileScan_of_literal hlayout pre
    have hlisting : (c.objectStore w sha256 b).listingPrefix (some pre) =
        .ok (c.literalPath w (c.scanPrefixBlob (some pre))) := by
      show Except.map String.ofList (c.listingPrefix w sha256 (some pre)) = _
      unfold listingPrefix
      rw [hlayout]
      rfl
    obtain ⟨m', hlisted⟩ := (c.objectStore w sha256 b).iterListedRows_run hpage
      (c.literalPath w (c.scanPrefixBlob (some pre))) (some pre) hpages
    have hrows : (((c.objectStore w sha256 b).listing pages).listedRows (some pre) false m).1 =
        .ok ((ObjectStoreKvBackend.listed (c.literalPath w (c.scanPrefixBlob (some pre))) none
          m.entries).filterMap ((c.objectStore w sha256 b).listedRow (some pre) m.clock)) := by
      show ((ofExcept ((c.objectStore w sha256 b).listingPrefix (some pre)) >>= _ : M _ _) m).1 = _
      rw [hlisting]
      exact congrArg Prod.fst hlisted
    have hliteral : c.kvset.keyLayout ≠ .hashed := by
      rw [hlayout]
      decide
    have hkeys := LeafKvStore.scan_run hliteral hcompiled hrows
    have hperm := c.listedKeys_perm w sha256 b pre m
    have hown : ∀ k, (∃ p, (c.objectStore w sha256 b).encodePhysical k = .ok p ∧ b.LiveAt m p) ↔
        b.LiveAt m (c.literalPath w (c.inKeyBlob k)) := by
      intro k
      have hencode : (c.objectStore w sha256 b).encodePhysical k = .ok (c.literalPath w (c.inKeyBlob k)) := by
        show Except.map String.ofList (c.encodePhysical w.toPathWire sha256 k) = _
        unfold encodePhysical
        rw [hlayout]
        rfl
      rw [hencode]
      constructor
      · intro ⟨p, hp, hlive⟩
        rw [Except.ok.inj hp]
        exact hlive
      · intro hlive
        exact ⟨_, rfl, hlive⟩
    rw [← c.exact_iff (b.nodup_livePlaces m) (fun p => b.mem_livePlaces)]
    unfold YieldsExactly Listing.Exact
    simp only [hown, b.mem_livePlaces, ← hperm.nodup_iff, ← hperm.mem_iff]
    constructor
    · intro ⟨keys, hok, hboth⟩
      rw [hkeys] at hok
      rw [Except.ok.inj hok]
      exact ⟨hlayout, hboth⟩
    · intro ⟨_, hboth⟩
      exact ⟨_, hkeys, hboth⟩
  · refine iff_of_false ?_ fun h => hlayout h.1
    intro ⟨keys, hkeys, _⟩
    have hrefused : ∃ e, (((c.objectStore w sha256 b).leafStore pages).scan c.kvset.keyLayout pre m).1 =
        .error e := by
      have hscanned : ∃ e, ((c.objectStore w sha256 b).leafStore pages).listing.compileScan
          (.ofPrefix (some pre) .keys .unordered none 100) = .error e :=
        ObjectListing.compileScan_of_ne hlayout _
      obtain ⟨e, he⟩ := hscanned
      unfold LeafKvStore.scan
      split
      · exact ⟨_, rfl⟩
      · refine ⟨e, ?_⟩
        unfold LeafKvStore.scanRows
        rw [he]
        rfl
    obtain ⟨e, he⟩ := hrefused
    rw [he] at hkeys
    cases hkeys

end KeyCodec

/-! ## Both -/

/-- Texts as objects that never die, `k` of `alice` the only one. -/
def textObjects : ObjectStoreKvBackend (List Char) String where
  typeName := "ObjectStoreKvBackend"
  driver := ⟨"driver", 1, true, 1000, fun key _ _ now => ⟨key, some now, none, none, none, none⟩⟩
  ttlSource := .objectTime
  expiryGc := .lazyDelete
  batchSize := 500
  ttlPolicy := ⟨none⟩
  keyLayout := .literal
  encodePhysical key := .ok (String.ofList key)
  decodeIfPrefix _ _ := none
  listingPrefix _ := .ok ""
  serialize value := value.toUTF8.toList
  deserialize _ := .ok ""

def ofAlice : KeyCodec (List Char) String Char String := items.cloneWithScope KeyCodec.alice rfl

def textBlob : Blob := ⟨[], "", none, none, none, none, none⟩

def twoObjects : Medium String Blob :=
  ⟨(Dict.single (ofAlice.literalPath .str (ofAlice.inKeyBlob ['k'])) textBlob).set
    (ofAlice.literalPath .str (ofAlice.inKeyBlob ['x'])) textBlob, 0⟩

namespace MemoryKvBackend

/-- A view of one user of a collection that declares no schema. -/
def ofAl : MemoryKvBackend (List Char) String Char String :=
  { plain String with scope := KeyCodec.al, valid := rfl }

end MemoryKvBackend

end Kvtsjl
