import Kvtsjl.Answers
import Kvtsjl.Existence

/-
  What a nest of compositions lacks. `missing_pages` goes down the chain of authorities,
  and at each composition with a fallback it lists the fallback's keys, a page at a time,
  against its authority. The argument is an induction over the nest. A store's existence
  contains what it lacks, since its fallback holds that, so a level further up does not list
  a key again. At each level the pages put together are one list, filtered.
-/

namespace Kvtsjl

open Assoc (Dict)
open Effects Prog

/-! ## A state that does not change -/

section Resting

variable {σ K V : Type} [DecidableEq K]

/-- Asked in the state `x`, the store says which keys it holds and lists, and leaves the
    state as it is. It holds what it lists, and lists each key once. -/
structure Resting (s : KvStore σ K V) (x : σ) (holds : K → Bool) (listed : List K) : Prop where
  existsKey : ∀ k, s.existsKey k x = (.ok (holds k), x)
  batchExists : ∀ ks, ∃ held, s.batchExists ks x = (.ok held, x) ∧
    ∀ k, k ∈ held ↔ k ∈ ks ∧ holds k = true
  scan : ∀ includeValues pageSize, ∃ rows,
    s.scanEntries ⟨none, includeValues, pageSize⟩ x = (.ok rows, x) ∧ rows.map Prod.fst = listed
  nodup : listed.Nodup
  held : ∀ k ∈ listed, holds k = true

/-- The page reads of a key what the store reads of it. -/
def ReadsAs (get : K → M σ (Option V)) (x : σ) (p : MissingPage σ K V) (k : K) : Prop :=
  ∀ ks d r, k ∈ ks → (p.read ks x).1 = .ok d → (get k x).1 = .ok r → d.get? k = r

/-- The pages of a record that lacks what `lacks` says: together they name each key it lacks,
    once, and read it as the record is read. -/
structure Partition (get : K → M σ (Option V)) (x : σ) (lacks : K → Prop)
    (pages : List (MissingPage σ K V)) : Prop where
  nodup : (pages.flatMap fun p => p.missing).Nodup
  mem : ∀ k, k ∈ (pages.flatMap fun p => p.missing) ↔ lacks k
  listed : ∀ p ∈ pages, p.missing ⊆ p.listed
  reads : ∀ p ∈ pages, ∀ k ∈ p.missing, ReadsAs get x p k

end Resting

theorem map_run {σ α β : Type} {m : M σ α} {x y : σ} {a : α} (f : α → β) (h : m x = (.ok a, y)) :
    (f <$> m) x = (.ok (f a), y) := by
  rw [map_apply, h]
  rfl

/-! ## Views -/

section ValueView

variable {σ K T U : Type} [DecidableEq K] {s : KvStore σ K T} {x : σ} {holds : K → Bool}
  {listed : List K} {lacks : K → Prop} {pages : List (MissingPage σ K T)}

theorem Resting.imap (h : Resting s x holds listed) (forward : T → U) (inverse : U → T) :
    Resting (imapStore s forward inverse) x holds listed where
  existsKey := h.existsKey
  batchExists := h.batchExists
  scan _ pageSize := by
    obtain ⟨rows, hrows, hkeys⟩ := h.scan true pageSize
    refine ⟨_, map_run _ hrows, ?_⟩
    rw [List.map_map]
    exact hkeys
  nodup := h.nodup
  held := h.held

theorem Partition.imap {get : K → M σ (Option T)} (h : Partition get x lacks pages) (forward : T → U) :
    Partition (fun k => Option.map forward <$> get k) x lacks
      (pages.map (MissingPage.mapValues forward)) where
  nodup := by
    rw [List.flatMap_map]
    exact h.nodup
  mem k := by
    rw [List.flatMap_map]
    exact h.mem k
  listed p hp := by
    obtain ⟨q, hq, rfl⟩ := List.mem_map.mp hp
    exact h.listed q hq
  reads p hp k hk ks d r hks hd hr := by
    obtain ⟨q, hq, rfl⟩ := List.mem_map.mp hp
    obtain ⟨d', hd', hdd⟩ := map_ok (m := q.read ks) hd
    obtain ⟨r', hr', hrr⟩ := map_ok (m := get k) hr
    have hread := h.reads q hq k hk ks d' r' hks hd' hr'
    rw [← hdd, ← hrr, ← hread]
    exact Dict.get?_map _ d' k

end ValueView

section KeyView

variable {σ K SK V : Type} [DecidableEq K] [DecidableEq SK] {s : KvStore σ SK V} {x : σ}
  {holds : SK → Bool} {listed : List SK} {lacks : SK → Prop} {pages : List (MissingPage σ SK V)}
  {toStore : K → SK} {fromStore : SK → K}

/-- The two maps of a view undo each other. -/
structure Inverse (toStore : K → SK) (fromStore : SK → K) : Prop where
  left : ∀ k, fromStore (toStore k) = k
  right : ∀ sk, toStore (fromStore sk) = sk

theorem Resting.imapKeys (h : Resting s x holds listed) (hinv : Inverse toStore fromStore) :
    Resting (imapKeysStore s toStore (some fromStore)) x (fun k => holds (toStore k))
      (listed.map fromStore) where
  existsKey k := h.existsKey (toStore k)
  batchExists ks := by
    have hinj : Function.Injective toStore := Function.LeftInverse.injective hinv.left
    obtain ⟨held, hheld, hmem⟩ := h.batchExists (callerKeys toStore ks).keys
    refine ⟨_, map_run _ hheld, fun k => ?_⟩
    rw [List.mem_toFinset, List.mem_filterMap]
    constructor
    · intro ⟨e, he, hsome⟩
      split at hsome
      · next hin =>
        obtain ⟨hks, hsk⟩ := (get?_callerKeys hinj ks e.1 e.2).mp (Dict.mem_entries.mp he)
        rw [← Option.some.inj hsome, hsk]
        exact ⟨hks, ((hmem e.1).mp hin).2⟩
      · cases hsome
    · intro ⟨hks, hholds⟩
      have hfiled := (get?_callerKeys hinj ks (toStore k) k).mpr ⟨hks, rfl⟩
      refine ⟨(toStore k, k), Dict.mem_entries.mpr hfiled, ?_⟩
      rw [if_pos ((hmem _).mpr ⟨Dict.mem_keys.mpr ⟨k, hfiled⟩, hholds⟩)]
  scan includeValues pageSize := by
    obtain ⟨rows, hrows, hkeys⟩ := h.scan includeValues pageSize
    refine ⟨_, map_run _ hrows, ?_⟩
    rw [← hkeys, List.map_map, List.map_map]
    rfl
  nodup := h.nodup.map fun a b hab => by rw [← hinv.right a, hab, hinv.right]
  held k hk := by
    obtain ⟨sk, hsk, rfl⟩ := List.mem_map.mp hk
    rw [hinv.right]
    exact h.held sk hsk

omit [DecidableEq SK] in
/-- The stored key a page's key stands for. -/
theorem storedKey_get? (hinv : Inverse toStore fromStore) {sks : List SK} {sk : SK} (h : sk ∈ sks) :
    (sks.foldl (fun d sk => d.set (fromStore sk) sk) (Dict.empty : Dict K SK)).get? (fromStore sk) =
      some sk := by
  have hinj : Function.Injective fromStore := Function.LeftInverse.injective hinv.right
  exact (get?_callerKeys hinj sks (fromStore sk) sk).mpr ⟨h, rfl⟩

theorem Partition.imapKeys {get : SK → M σ (Option V)} (h : Partition get x lacks pages)
    (hinv : Inverse toStore fromStore) :
    Partition (fun k => get (toStore k)) x (fun k => ∃ sk, lacks sk ∧ fromStore sk = k)
      (pages.map (MissingPage.mapKeys fromStore)) where
  nodup := by
    have hinj : Function.Injective fromStore := Function.LeftInverse.injective hinv.right
    have hmissing : ((pages.map (MissingPage.mapKeys fromStore)).flatMap fun p => p.missing) =
        (pages.flatMap fun p => p.missing).map fromStore := by
      rw [List.flatMap_map, List.map_flatMap]
      rfl
    rw [hmissing]
    exact h.nodup.map hinj
  mem k := by
    have hmissing : ((pages.map (MissingPage.mapKeys fromStore)).flatMap fun p => p.missing) =
        (pages.flatMap fun p => p.missing).map fromStore := by
      rw [List.flatMap_map, List.map_flatMap]
      rfl
    rw [hmissing, List.mem_map]
    exact exists_congr fun sk => and_congr_left fun _ => h.mem sk
  listed p hp := by
    obtain ⟨q, hq, rfl⟩ := List.mem_map.mp hp
    exact List.map_subset fromStore (h.listed q hq)
  reads p hp k hk ks d r hks hd hr := by
    obtain ⟨q, hq, rfl⟩ := List.mem_map.mp hp
    obtain ⟨sk, hsk, rfl⟩ := List.mem_map.mp hk
    have hstored := storedKey_get? hinv (h.listed q hq hsk)
    let stored := q.listed.foldl (fun d sk => d.set (fromStore sk) sk) (Dict.empty : Dict K SK)
    obtain ⟨found, hfound, hdd⟩ := map_ok (m := q.read (ks.filterMap stored.get?)) hd
    have hr' : (get sk x).1 = .ok r := by
      rw [← hinv.right sk]
      exact hr
    have hin : sk ∈ ks.filterMap stored.get? := List.mem_filterMap.mpr ⟨fromStore sk, hks, hstored⟩
    have hread := h.reads q hq sk hsk _ found r hin hfound hr'
    rw [← hdd, Dict.get?_ofKeys, ← hread]
    simp only [hstored, Option.bind_some]
    split
    · rfl
    · next hnot =>
      cases hget : found.get? sk with
      | none => rfl
      | some v => exact absurd (List.mem_map_of_mem (Dict.mem_keys.mpr ⟨v, hget⟩)) hnot

end KeyView

/-! ## Parts of a larger state -/

section Zoom

variable {σ τ K V : Type} [DecidableEq K] {l : Lens σ τ} {x : σ}

theorem zoom_run {α : Type} {m : M τ α} {a : α} (h : m (l.get x) = (.ok a, l.get x)) :
    l.zoom m x = (.ok a, x) := by
  rw [Lens.zoom_apply, h]
  exact congrArg _ (l.set_get x)

omit [DecidableEq K] in
theorem Resting.zoom {s : KvStore τ K V} {holds : K → Bool} {listed : List K}
    (h : Resting s (l.get x) holds listed) : Resting (s.zoom l) x holds listed where
  existsKey k := zoom_run (h.existsKey k)
  batchExists ks := by
    obtain ⟨held, hheld, hmem⟩ := h.batchExists ks
    exact ⟨held, zoom_run hheld, hmem⟩
  scan includeValues pageSize := by
    obtain ⟨rows, hrows, hkeys⟩ := h.scan includeValues pageSize
    exact ⟨rows, zoom_run hrows, hkeys⟩
  nodup := h.nodup
  held := h.held

theorem Partition.zoom {get : K → M τ (Option V)} {lacks : K → Prop} {pages : List (MissingPage τ K V)}
    (h : Partition get (l.get x) lacks pages) :
    Partition (fun k => l.zoom (get k)) x lacks (pages.map (MissingPage.zoom l)) where
  nodup := by
    rw [List.flatMap_map]
    exact h.nodup
  mem k := by
    rw [List.flatMap_map]
    exact h.mem k
  listed p hp := by
    obtain ⟨q, hq, rfl⟩ := List.mem_map.mp hp
    exact h.listed q hq
  reads p hp := by
    obtain ⟨q, hq, rfl⟩ := List.mem_map.mp hp
    exact h.reads q hq

end Zoom

/-! ## Targets of a node -/

section Targets

variable {S K V P : Type} [DecidableEq K]

/-- As `Resting`, of a target. -/
structure Target.Resting (t : Target S K V V) (m : S) (holds : K → Bool) (listed : List K) : Prop where
  existsKey : ∀ k, t.existsKey k m = (.ok (holds k), m)
  batchExists : ∀ ks, ∃ held, t.batchExists ks m = (.ok held, m) ∧
    ∀ k, k ∈ held ↔ k ∈ ks ∧ holds k = true
  keys : ∀ pageSize, t.keys pageSize m = (.ok listed, m)
  scan : ∀ includeValues pageSize, ∃ rows,
    t.scanEntries ⟨none, includeValues, pageSize⟩ m = (.ok rows, m) ∧ rows.map Prod.fst = listed
  nodup : listed.Nodup
  held : ∀ k ∈ listed, holds k = true

theorem Resting.target [DecidableEq V] {s : KvStore S K V} {m : S} {holds : K → Bool} {listed : List K}
    (h : Resting s m holds listed) (d : Declared) : (storeTarget d s some id).Resting m holds listed where
  existsKey := h.existsKey
  batchExists := h.batchExists
  keys pageSize := by
    obtain ⟨rows, hrows, hkeys⟩ := h.scan false pageSize
    rw [← hkeys]
    exact map_run _ hrows
  scan includeValues pageSize := by
    obtain ⟨rows, hrows, hkeys⟩ := h.scan includeValues pageSize
    refine ⟨_, map_run _ hrows, ?_⟩
    rw [List.map_map]
    exact hkeys
  nodup := h.nodup
  held := h.held

/-- A target's pages, with what it reads as it is. -/
theorem Partition.target {get : K → M S (Option V)} {m : S} {lacks : K → Prop}
    {pages : List (MissingPage S K V)} (h : Partition get m lacks pages) :
    Partition (fun k => Option.map id <$> get k) m lacks (pages.map (Target.mapPage id)) :=
  h.imap id

variable {m : S} {t u : Target S K V V} {holds holds' : K → Bool} {listed listed' : List K}

omit [DecidableEq K] in
theorem existsFrom_resting (h : t.Resting m holds listed) (rest : List (Target S K V V)) (k : K) :
    Topology.existsFrom k (t :: rest) m =
      if holds k then (.ok true, m) else Topology.existsFrom k rest m := by
  rw [Topology.existsFrom, bind_ok (h.existsKey k)]
  cases holds k <;> rfl

theorem existsShare_resting (h : t.Resting m holds listed) (keys : List K) (found : Finset K) :
    ∃ found', Topology.existsShare keys found t m = (.ok found', m) ∧
      ∀ k, k ∈ found' ↔ k ∈ found ∨ k ∈ keys ∧ holds k = true := by
  unfold Topology.existsShare
  by_cases hempty : (keys.filter fun k => k ∉ found).isEmpty = true
  · rw [if_pos hempty]
    refine ⟨found, rfl, fun k => ⟨.inl, ?_⟩⟩
    rintro (hk | ⟨hk, -⟩)
    · exact hk
    · have hall := List.filter_eq_nil_iff.mp (List.isEmpty_iff.mp hempty) k hk
      simpa using hall
  · rw [if_neg hempty]
    obtain ⟨held, hheld, hmem⟩ := h.batchExists (keys.filter fun k => k ∉ found)
    refine ⟨found ∪ held, map_run (fun held => found ∪ held) hheld, fun k => ?_⟩
    rw [Finset.mem_union, hmem, List.mem_filter]
    by_cases hk : k ∈ found
    · simp [hk]
    · simp [hk]

/-- The keys of a page the target does not hold. -/
theorem absentFrom_resting (h : t.Resting m holds listed) (page : List K) :
    Topology.absentFrom page [t] m = (.ok (page.filter fun k => !holds k), m) := by
  unfold Topology.absentFrom
  rw [List.foldlM_cons]
  cases page with
  | nil => rfl
  | cons j js =>
    obtain ⟨held, hheld, hmem⟩ := h.batchExists (j :: js)
    have hfilter : (j :: js).filter (fun k => decide (k ∉ held)) = (j :: js).filter fun k => !holds k := by
      refine List.filter_congr fun k hk => ?_
      rw [Bool.eq_iff_iff, decide_eq_true_iff, hmem]
      simp [hk]
    have hstep : ((fun held : Finset K => (j :: js).filter fun k => k ∉ held) <$> t.batchExists (j :: js)) m =
        (.ok ((j :: js).filter fun k => !holds k), m) := by
      rw [← hfilter]
      exact map_run _ hheld
    exact (bind_ok hstep).trans rfl

theorem mapM_resting {α β : Type} {f : α → M S β} {g : α → β} (h : ∀ a, f a m = (.ok (g a), m))
    (xs : List α) : xs.mapM f m = (.ok (xs.map g), m) := by
  induction xs with
  | nil => rfl
  | cons a xs ih =>
    rw [List.mapM_cons, bind_ok (h a), bind_ok ih]
    rfl

/-- The pages of a fallback behind one target. -/
theorem fallbackPages_resting (h : t.Resting m holds listed) (h' : u.Resting m holds' listed') (pageSize : Nat) :
    Topology.fallbackPages pageSize [t] [u] m =
      (.ok ((listed'.toChunks pageSize).map fun page =>
        ⟨page, page.filter fun k => !holds k, u.batchRead, u.batchStat⟩), m) := by
  rw [Topology.fallbackPages, bind_ok (h'.keys pageSize)]
  have hpages := mapM_resting (f := fun page => do
      return (⟨page, ← Topology.absentFrom page [t], u.batchRead, u.batchStat⟩ : MissingPage S K V))
    (g := fun page => ⟨page, page.filter fun k => !holds k, u.batchRead, u.batchStat⟩)
    (fun page => map_run (fun absent => (⟨page, absent, u.batchRead, u.batchStat⟩ : MissingPage S K V))
      (absentFrom_resting h page)) (listed'.toChunks pageSize)
  rw [bind_ok hpages]
  simp [Topology.fallbackPages]

end Targets

/-! ## Nodes -/

namespace Topology

variable {S K V P : Type} [DecidableEq K] {T : Topology S K V P} {m : S} {t u : Target S K V V}
  {holds holds' : K → Bool} {listed listed' : List K} {lacks : K → Prop}
  {below : List (MissingPage S K V)}

/-- A node whose reads only ask its authority. -/
structure Alone (T : Topology S K V P) (t : Target S K V V) : Prop where
  lookups : T.lookups = [t]
  authority : T.wholeAuthority = some t
  whole : T.assembled = false
  role : t.role ≠ .fallback

/-- A node whose reads ask its authority, and then its fallback. -/
structure Behind (T : Topology S K V P) (t u : Target S K V V) : Prop where
  lookups : T.lookups = [t, u]
  authority : T.wholeAuthority = some t
  whole : T.assembled = false
  role : t.role ≠ .fallback
  fallback : u.role = .fallback

theorem scan_resting (hauth : T.wholeAuthority = some t) (h : t.Resting m holds listed)
    (includeValues : Bool) (pageSize : Nat) :
    ∃ rows, T.scanEntries ⟨none, includeValues, pageSize⟩ m = (.ok rows, m) ∧ rows.map Prod.fst = listed := by
  obtain ⟨rows, hrows, hkeys⟩ := h.scan includeValues pageSize
  refine ⟨rows, ?_, hkeys⟩
  unfold scanEntries
  rw [hauth]
  exact hrows

theorem resting_store (typeName : String) {n : Node S K V P} (hexists : ∀ k, T.existsKey k n.media = (.ok (holds k), n.media))
    (hbatch : ∀ ks, ∃ held, T.batchExists ks n.media = (.ok held, n.media) ∧
      ∀ k, k ∈ held ↔ k ∈ ks ∧ holds k = true)
    (hscan : ∀ includeValues pageSize, ∃ rows,
      T.scanEntries ⟨none, includeValues, pageSize⟩ n.media = (.ok rows, n.media) ∧
        rows.map Prod.fst = listed)
    (hnodup : listed.Nodup) (hheld : ∀ k ∈ listed, holds k = true) :
    Resting (T.store typeName) n holds listed where
  existsKey k := zoom_run (hexists k)
  batchExists ks := by
    obtain ⟨held, hrun, hmem⟩ := hbatch ks
    exact ⟨held, zoom_run hrun, hmem⟩
  scan includeValues pageSize := by
    obtain ⟨rows, hrows, hkeys⟩ := hscan includeValues pageSize
    exact ⟨rows, zoom_run hrows, hkeys⟩
  nodup := hnodup
  held := hheld

theorem Alone.resting (ha : T.Alone t) (typeName : String) {n : Node S K V P} (h : t.Resting n.media holds listed) :
    Resting (T.store typeName) n holds listed := by
  refine resting_store typeName (fun k => ?_) (fun ks => ?_) (scan_resting ha.authority h) h.nodup h.held
  · rw [show T.existsKey k = existsFrom k T.lookups from if_neg (by rw [ha.whole]; decide), ha.lookups,
      existsFrom_resting h]
    cases holds k <;> rfl
  · obtain ⟨held, hrun, hmem⟩ := existsShare_resting h ks ∅
    refine ⟨held, ?_, fun k => by rw [hmem]; simp⟩
    rw [show T.batchExists ks = T.lookups.foldlM (existsShare ks) ∅ from if_neg (by rw [ha.whole]; decide),
      ha.lookups, List.foldlM_cons, bind_ok hrun]
    rfl

theorem Behind.resting (hb : T.Behind t u) (typeName : String) {n : Node S K V P}
    (h : t.Resting n.media holds listed) (h' : u.Resting n.media holds' listed') :
    Resting (T.store typeName) n (fun k => holds k || holds' k) listed := by
  refine resting_store typeName (fun k => ?_) (fun ks => ?_) (scan_resting hb.authority h) h.nodup fun k hk => ?_
  · rw [show T.existsKey k = existsFrom k T.lookups from if_neg (by rw [hb.whole]; decide), hb.lookups,
      existsFrom_resting h, existsFrom_resting h']
    cases holds k <;> cases holds' k <;> rfl
  · obtain ⟨found, hrun, hmem⟩ := existsShare_resting h ks ∅
    obtain ⟨held, hrun', hmem'⟩ := existsShare_resting h' ks found
    refine ⟨held, ?_, fun k => ?_⟩
    · rw [show T.batchExists ks = T.lookups.foldlM (existsShare ks) ∅ from if_neg (by rw [hb.whole]; decide),
        hb.lookups, List.foldlM_cons, bind_ok hrun, List.foldlM_cons, bind_ok hrun']
      rfl
    · rw [hmem', hmem, Bool.or_eq_true]
      simp only [Finset.notMem_empty, false_or]
      rw [and_or_left]
  · rw [h.held k hk]
    rfl

/-- A read of a node asks the authority first. -/
theorem read_first (hwhole : T.assembled = false) {rest : List (Target S K V V)}
    (hlookups : T.lookups = t :: rest) {k : K} {r : Option V} (h : (T.read k m).1 = .ok r) :
    ∃ r' m', t.read k m = (.ok r', m') ∧
      ((∃ v, r' = some v ∧ r = some v) ∨ r' = none ∧ (readFrom k rest [t] m').1 = .ok r) := by
  have hread : T.read k = readFrom k T.lookups [] := if_neg (by rw [hwhole]; decide)
  rw [hread, hlookups] at h
  exact readFrom_cons h

theorem Alone.partition (ha : T.Alone t) (hbelow : Partition t.read m lacks below) :
    Partition T.read m lacks below where
  nodup := hbelow.nodup
  mem := hbelow.mem
  listed := hbelow.listed
  reads p hp k hk ks d r hks hd hr := by
    obtain ⟨r', m', hread, hcase⟩ := read_first ha.whole ha.lookups hr
    have hsame : r' = r := by
      rcases hcase with ⟨v, hr', hv⟩ | ⟨hr', hrest⟩
      · rw [hr', hv]
      · rw [hr']
        exact Except.ok.inj hrest
    rw [← hsame]
    exact hbelow.reads p hp k hk ks d r' hks hd (by rw [hread])

theorem Alone.missingPages (ha : T.Alone t) {pageSize : Nat}
    (hbelow : t.missingPages pageSize m = (.ok below, m)) :
    T.missingPages pageSize m = (.ok below, m) := by
  have hnone : (T.lookups.filter fun t => t.role = .fallback) = [] := by
    rw [ha.lookups]
    simp [ha.role]
  unfold Topology.missingPages
  rw [ha.authority, hnone]
  simp only
  rw [bind_ok hbelow]
  simp [fallbackPages]

/-- The pages a fallback adds to those of the authority. -/
theorem Behind.missingPages (hb : T.Behind t u) {pageSize : Nat}
    (hbelow : t.missingPages pageSize m = (.ok below, m)) (h : t.Resting m holds listed)
    (h' : u.Resting m holds' listed') :
    T.missingPages pageSize m = (.ok (below ++ (listed'.toChunks pageSize).map fun page =>
      ⟨page, page.filter fun k => !holds k, u.batchRead, u.batchStat⟩), m) := by
  have hone : (T.lookups.filter fun t => t.role = .fallback) = [u] := by
    rw [hb.lookups]
    simp [hb.role, hb.fallback]
  unfold Topology.missingPages
  rw [hb.authority, hone]
  simp only
  rw [bind_ok hbelow, bind_ok (fallbackPages_resting h h' pageSize)]
  rfl

/-- What the authority lacks it holds, through its own fallbacks, so the fallback's pages
    do not name that again. -/
theorem Behind.partition (hb : T.Behind t u) (hagree : t.Agree) (hagree' : u.Agree) (hspares : t.Spares u)
    (h : t.Resting m holds listed) (h' : u.Resting m holds' listed')
    (hbelow : Partition t.read m lacks below) (hlacks : ∀ k, lacks k → holds k = true) (pageSize : Nat) :
    Partition T.read m (fun k => lacks k ∨ k ∈ listed' ∧ holds k = false)
      (below ++ (listed'.toChunks pageSize).map fun page =>
        ⟨page, page.filter fun k => !holds k, u.batchRead, u.batchStat⟩) := by
  have hpages : (((listed'.toChunks pageSize).map fun page =>
      (⟨page, page.filter fun k => !holds k, u.batchRead, u.batchStat⟩ : MissingPage S K V)).flatMap
        fun p => p.missing) = listed'.filter fun k => !holds k := by
    rw [List.flatMap_map]
    conv_rhs => rw [← flatten_toChunks pageSize listed', List.filter_flatten]
    rfl
  have hmem : ∀ k, k ∈ (listed'.filter fun k => !holds k) ↔ k ∈ listed' ∧ holds k = false := by
    intro k
    rw [List.mem_filter]
    simp
  refine ⟨?_, fun k => ?_, fun p hp => ?_, fun p hp k hk ks d r hks hd hr => ?_⟩
  · rw [List.flatMap_append, hpages, List.nodup_append]
    refine ⟨hbelow.nodup, h'.nodup.filter _, fun a ha b hb' hab => ?_⟩
    have hheld := hlacks a ((hbelow.mem a).mp ha)
    rw [← hab] at hb'
    rw [((hmem a).mp hb').2] at hheld
    cases hheld
  · rw [List.flatMap_append, hpages, List.mem_append, hbelow.mem, hmem]
  · rcases List.mem_append.mp hp with hp | hp
    · exact hbelow.listed p hp
    · obtain ⟨page, -, rfl⟩ := List.mem_map.mp hp
      exact fun k hk => List.mem_of_mem_filter hk
  · obtain ⟨r', m', hread, hcase⟩ := read_first hb.whole hb.lookups hr
    have hfirst : (t.read k m).1 = .ok r' := by rw [hread]
    have hexists := hagree.existsKey k m r' hfirst
    rw [h.existsKey k] at hexists
    have hsome : holds k = r'.isSome := Except.ok.inj hexists
    rcases List.mem_append.mp hp with hp | hp
    · -- the authority holds the key, through a fallback of its own
      have hheld := hlacks k ((hbelow.mem k).mp (List.mem_flatMap.mpr ⟨p, hp, hk⟩))
      rcases hcase with ⟨v, hr', hv⟩ | ⟨hr', -⟩
      · rw [hv, ← hr']
        exact hbelow.reads p hp k hk ks d r' hks hd hfirst
      · rw [hr', hheld] at hsome
        cases hsome
    · obtain ⟨page, -, rfl⟩ := List.mem_map.mp hp
      have hlost : holds k = false := by
        have hfilter := (List.mem_filter.mp hk).2
        simpa using hfilter
      rcases hcase with ⟨v, hr', -⟩ | ⟨hr', hrest⟩
      · rw [hr', hlost] at hsome
        cases hsome
      · obtain ⟨r'', m'', hread', hcase'⟩ := readFrom_cons hrest
        have halike : u.Alike m m' := by
          have hmoves := hspares.read k m
          rw [hread] at hmoves
          exact hmoves
        have hsecond : (u.read k m).1 = .ok r'' := by
          rw [← halike.read k, hread']
        have hsame : r'' = r := by
          rcases hcase' with ⟨v, hr'', hv⟩ | ⟨hr'', hnil⟩
          · rw [hr'', hv]
          · rw [hr'']
            exact Except.ok.inj hnil
        rw [← hsame]
        exact (hagree'.batchGet ks m d hd k).2 r'' hks hsecond

end Topology

/-! ## Nests -/

/-- A nest of compositions and views, as it is put together. -/
inductive Nesting : Type → Type → Type 1 where
  | leaf {K V : Type} (l : Leaf K V) : Nesting K V
  | imap {K T U : Type} (n : Nesting K T) (forward : T → U) (inverse : U → T) : Nesting K U
  | imapKeys {K SK V : Type} (decKeys : DecidableEq SK) (n : Nesting SK V) (toStore : K → SK)
      (fromStore : SK → K) : Nesting K V
  | fallbackRead {K V : Type} (dec : DecidableEq V) (primary secondary : Nesting K V) (promote : Bool) :
      Nesting K V
  | mirror {K V : Type} (dec : DecidableEq V) (primary secondary : Nesting K V) (syncPolicy : SyncPolicy) :
      Nesting K V
  | indexed {K V : Type} (dec : DecidableEq V) (underlying : Nesting K V) {m : Nat}
      (indexes : Fin m → IndexLeaf K V) (syncPolicy : SyncPolicy) : Nesting K V

namespace Nesting

/-- The tree of a nest. -/
def composition : {K V : Type} → Nesting K V → Composition K V
  | _, _, .leaf l => .leaf l
  | _, _, .imap n forward inverse => .imap n.composition forward inverse
  | _, _, .imapKeys dec n toStore fromStore => .imapKeys dec n.composition toStore (some fromStore)
  | _, _, .fallbackRead _ primary secondary promote =>
    .fallbackRead primary.composition secondary.composition promote
  | _, _, .mirror _ primary secondary syncPolicy =>
    .mirror primary.composition secondary.composition syncPolicy
  | _, _, .indexed _ underlying indexes syncPolicy =>
    .indexed underlying.composition indexes syncPolicy

abbrev State {K V : Type} (n : Nesting K V) : Type := n.composition.State

abbrev store {K V : Type} [DecidableEq K] (n : Nesting K V) : KvStore n.State K V := n.composition.store

end Nesting

/-- A state the leaf's reads do not change. It lists exactly the keys it holds, each once,
    its own ways to ask agree, and it lacks nothing. -/
def Leaf.Still {K V : Type} (l : Leaf K V) (x : l.State) : Prop :=
  l.Agree ∧ ∀ [DecidableEq K], ∃ holds listed, Resting l.store x holds listed ∧
    (∀ k, holds k = true → k ∈ listed) ∧ ∀ pageSize, l.store.missingPages pageSize x = (.ok [], x)

namespace Nesting

/-- Every leaf a read of the nest may ask is in a state that does not change, and the maps
    of its key views undo each other. -/
def Still : {K V : Type} → (n : Nesting K V) → n.State → Prop
  | _, _, .leaf l, x => l.Still x
  | _, _, .imap n _ _, x => n.Still x
  | _, _, .imapKeys _ n toStore fromStore, x => Inverse toStore fromStore ∧ n.Still x
  | _, _, .fallbackRead _ primary secondary _, x =>
    primary.Still (x.media.1 0) ∧ secondary.Still (x.media.1 1)
  | _, _, .mirror _ primary _ _, x => primary.Still (x.media.1 0)
  | _, _, .indexed _ underlying _ _, x => underlying.Still (x.media.1 0)

variable {K V : Type} [DecidableEq K]

/-- A scan of the store yields the key. -/
def Lists (n : Nesting K V) (x : n.State) (k : K) : Prop :=
  ∃ pageSize rows, (n.store.scanEntries ⟨none, false, pageSize⟩ x).1 = .ok rows ∧ k ∈ rows.map Prod.fst

/-- The key exists in the store. -/
def Holds (n : Nesting K V) (x : n.State) (k : K) : Prop := (n.store.existsKey k x).1 = .ok true

/-- The fallback of some composition on the chain of authorities lists the key, and the
    authority of that composition does not hold it. -/
def Lacks : {K V : Type} → [DecidableEq K] → (n : Nesting K V) → n.State → K → Prop
  | _, _, _, .leaf _, _, _ => False
  | _, _, _, .imap n _ _, x, k => n.Lacks x k
  | _, _, _, .imapKeys _ n _ fromStore, x, k => ∃ sk, n.Lacks x sk ∧ fromStore sk = k
  | _, _, _, .fallbackRead _ primary secondary _, x, k =>
    primary.Lacks (x.media.1 0) k ∨
      secondary.Lists (x.media.1 1) k ∧ ¬ primary.Holds (x.media.1 0) k
  | _, _, _, .mirror _ primary _ _, x, k => primary.Lacks (x.media.1 0) k
  | _, _, _, .indexed _ underlying _ _, x, k => underlying.Lacks (x.media.1 0) k

/-- What is shown of a nest by induction: its ways to ask agree, a state that does not change
    answers for it, and its pages partition what it lacks, which it holds through a fallback. -/
structure Answered (n : Nesting K V) (x : n.State) (holds : K → Bool) (listed : List K) : Prop where
  agree : n.store.Agree
  resting : Resting n.store x holds listed
  pages : ∀ pageSize, ∃ pages, n.store.missingPages pageSize x = (.ok pages, x) ∧
    Partition n.store.get x (n.Lacks x) pages
  lacks : ∀ k, n.Lacks x k → holds k = true

section Children

variable [DecidableEq V] {n m : Nat} {part : Fin n → Composition K V} {I : Fin m → Type}
  {state : Media (fun i => (part i).State) I} {i j : Fin n}

/-- The store of a node's child, as the node's target. -/
def childTarget (part : Fin n → Composition K V) (I : Fin m → Type) (d : Declared) (i : Fin n) :
    Target (Media (fun i => (part i).State) I) K V V :=
  storeTarget d ((part i).store.zoom (Media.child i)) some id

theorem child_agree (h : (part i).store.Agree) (d : Declared) : (childTarget part I d i).Agree :=
  storeTarget_agree (h.zoom (Media.child i)) d some id

theorem child_resting {holds : K → Bool} {listed : List K}
    (h : Resting (part i).store (state.1 i) holds listed) (d : Declared) :
    (childTarget part I d i).Resting state holds listed :=
  Resting.target (Resting.zoom (l := Media.child i) h) d

theorem child_spares (h : i ≠ j) (d d' : Declared) :
    (childTarget part I d i).Spares (childTarget part I d' j) := by
  unfold childTarget
  rw [storeTarget_zoom, storeTarget_zoom]
  exact Target.spares_zoom (Media.child_apart (Ne.symm h)) _ _

theorem child_pages {lacks : K → Prop} {pageSize : Nat} {pages : List (MissingPage (part i).State K V)}
    (hpages : (part i).store.missingPages pageSize (state.1 i) = (.ok pages, state.1 i))
    (hpart : Partition (part i).store.get (state.1 i) lacks pages) (d : Declared) :
    ∃ below, (childTarget part I d i).missingPages pageSize state = (.ok below, state) ∧
      Partition (childTarget part I d i).read state lacks below :=
  ⟨_, map_run _ (zoom_run (l := Media.child i) (map_run _ hpages)),
    (Partition.zoom (l := Media.child i) hpart).target⟩

/-- A node that puts the whole record in its one child, or first reads it there. -/
theorem answered_alone {P : Type} {T : Topology (Media (fun i => (part i).State) I) K V P}
    {d : Declared} (ha : T.Alone (childTarget part I d i)) (typeName : String)
    (x : Node (Media (fun i => (part i).State) I) K V P) {holds : K → Bool} {listed : List K}
    {lacks : K → Prop} (hagree : (part i).store.Agree)
    (hresting : Resting (part i).store (x.media.1 i) holds listed)
    (hpages : ∀ pageSize, ∃ pages,
      (part i).store.missingPages pageSize (x.media.1 i) = (.ok pages, x.media.1 i) ∧
        Partition (part i).store.get (x.media.1 i) lacks pages) :
    (T.store typeName).Agree ∧ Resting (T.store typeName) x holds listed ∧
      ∀ pageSize, ∃ pages, (T.store typeName).missingPages pageSize x = (.ok pages, x) ∧
        Partition (T.store typeName).get x lacks pages := by
  refine ⟨?_, ha.resting typeName (child_resting hresting d), fun pageSize => ?_⟩
  · have hlookups : ∀ t ∈ T.lookups, t.Agree := by
      intro t ht
      rw [ha.lookups, List.mem_singleton] at ht
      rw [ht]
      exact child_agree hagree d
    have hspares : T.lookups.Pairwise Target.Spares := by
      rw [ha.lookups]
      exact List.pairwise_singleton _ _
    exact (Topology.agrees_of_lookups (by rw [ha.whole]; decide) hlookups hspares).zoom Node.mediaLens
  · obtain ⟨pages, hrun, hpart⟩ := hpages pageSize
    obtain ⟨below, hbelow, hpart'⟩ := child_pages hrun hpart d
    exact ⟨_, zoom_run (l := Node.mediaLens) (map_run _ (ha.missingPages hbelow)),
      Partition.zoom (l := Node.mediaLens) (ha.partition hpart')⟩

/-- A node that reads a second child where the first misses. -/
theorem answered_behind {P : Type} {T : Topology (Media (fun i => (part i).State) I) K V P}
    {d d' : Declared} (hb : T.Behind (childTarget part I d i) (childTarget part I d' j)) (hij : i ≠ j)
    (typeName : String) (x : Node (Media (fun i => (part i).State) I) K V P) {holds holds' : K → Bool}
    {listed listed' : List K} {lacks : K → Prop} (hagree : (part i).store.Agree)
    (hagree' : (part j).store.Agree) (hresting : Resting (part i).store (x.media.1 i) holds listed)
    (hresting' : Resting (part j).store (x.media.1 j) holds' listed')
    (hpages : ∀ pageSize, ∃ pages,
      (part i).store.missingPages pageSize (x.media.1 i) = (.ok pages, x.media.1 i) ∧
        Partition (part i).store.get (x.media.1 i) lacks pages) (hlacks : ∀ k, lacks k → holds k = true) :
    (T.store typeName).Agree ∧ Resting (T.store typeName) x (fun k => holds k || holds' k) listed ∧
      ∀ pageSize, ∃ pages, (T.store typeName).missingPages pageSize x = (.ok pages, x) ∧
        Partition (T.store typeName).get x (fun k => lacks k ∨ k ∈ listed' ∧ holds k = false) pages := by
  have hfirst := child_agree (I := I) hagree d
  have hsecond := child_agree (I := I) hagree' d'
  have hspares : (childTarget part I d i).Spares (childTarget part I d' j) := child_spares hij d d'
  refine ⟨?_, hb.resting typeName (child_resting hresting d) (child_resting hresting' d'), fun pageSize => ?_⟩
  · have hlookups : ∀ t ∈ T.lookups, t.Agree := by
      intro t ht
      rw [hb.lookups, List.mem_pair] at ht
      rcases ht with ht | ht <;> rw [ht]
      · exact hfirst
      · exact hsecond
    have hapart : T.lookups.Pairwise Target.Spares := by
      rw [hb.lookups]
      exact List.pairwise_pair.mpr hspares
    exact (Topology.agrees_of_lookups (by rw [hb.whole]; decide) hlookups hapart).zoom Node.mediaLens
  · obtain ⟨pages, hrun, hpart⟩ := hpages pageSize
    obtain ⟨below, hbelow, hpart'⟩ := child_pages hrun hpart d
    have hq : (childTarget part I d i).Resting x.media holds listed := child_resting hresting d
    have hq' : (childTarget part I d' j).Resting x.media holds' listed' := child_resting hresting' d'
    exact ⟨_, zoom_run (l := Node.mediaLens) (map_run _ (hb.missingPages hbelow hq hq')),
      Partition.zoom (l := Node.mediaLens)
        (hb.partition hfirst hsecond hspares hq hq' hpart' hlacks pageSize)⟩

end Children

/-- The two stores of a pair. -/
def both (first second : Composition K V) (i : Fin 2) : Composition K V :=
  match i with
  | 0 => first
  | 1 => second

theorem answered {K V : Type} (n : Nesting K V) :
    ∀ [DecidableEq K] (x : n.State), n.Still x → ∃ holds listed, n.Answered x holds listed := by
  induction n with
  | leaf l =>
    intro _ x ⟨hagree, hstill⟩
    obtain ⟨holds, listed, hresting, -, hpages⟩ := hstill
    refine ⟨holds, listed, hagree.agree, hresting, fun pageSize => ⟨[], hpages pageSize, ?_⟩, fun k hk => hk.elim⟩
    exact ⟨List.nodup_nil, fun k => ⟨fun hk => (List.not_mem_nil hk).elim, fun hk => hk.elim⟩,
      fun p hp => (List.not_mem_nil hp).elim, fun p hp => (List.not_mem_nil hp).elim⟩
  | imap n forward inverse ih =>
    intro _ x hx
    obtain ⟨holds, listed, h⟩ := ih x hx
    refine ⟨holds, listed, imapStore_agree h.agree forward inverse, h.resting.imap forward inverse,
      fun pageSize => ?_, h.lacks⟩
    obtain ⟨pages, hpages, hpart⟩ := h.pages pageSize
    exact ⟨_, map_run _ hpages, hpart.imap forward⟩
  | imapKeys dec n toStore fromStore ih =>
    intro _ x ⟨hinv, hx⟩
    obtain ⟨holds, listed, h⟩ := ih x hx
    have hinj : Function.Injective toStore := Function.LeftInverse.injective hinv.left
    refine ⟨_, _, imapKeysStore_agree h.agree hinj (some fromStore), h.resting.imapKeys hinv,
      fun pageSize => ?_, fun k ⟨sk, hsk, hk⟩ => ?_⟩
    · obtain ⟨pages, hpages, hpart⟩ := h.pages pageSize
      exact ⟨_, map_run _ hpages, hpart.imapKeys hinv⟩
    · rw [← hk, hinv.right]
      exact h.lacks sk hsk
  | fallbackRead dec primary secondary promote ihp ihs =>
    rintro _ x ⟨hx, hx'⟩
    obtain ⟨holds, listed, h⟩ := ihp (x.media.1 0) hx
    obtain ⟨holds', listed', h'⟩ := ihs (x.media.1 1) hx'
    let child := both primary.composition secondary.composition
    have hb : (Composition.topologyOf (P := Empty) child
        (fun i => match i with
          | 0 => ⟨"primary", .authority, none, promote, .required⟩
          | 1 => ⟨"secondary", .fallback, none, false, .required⟩)
        (fun _ => .whole) (Fin.elim0 : Fin 0 → IndexLeaf _ _) none none).Behind
          (childTarget child _ ⟨"primary", .authority, none, promote, .required⟩ 0)
          (childTarget child _ ⟨"secondary", .fallback, none, false, .required⟩ 1) :=
      ⟨rfl, rfl, rfl, by show Role.authority ≠ Role.fallback; decide, rfl⟩
    obtain ⟨hagree, hresting, hpages⟩ := answered_behind hb (by decide) "CoalescedKvStore" x h.agree h'.agree
      h.resting h'.resting h.pages h.lacks
    have hlacks : ∀ k, (fallbackRead dec primary secondary promote).Lacks x k ↔
        primary.Lacks (x.media.1 0) k ∨ k ∈ listed' ∧ holds k = false := by
      intro k
      have hlists : secondary.Lists (x.media.1 1) k ↔ k ∈ listed' := by
        constructor
        · intro ⟨pageSize, rows, hrows, hk⟩
          obtain ⟨rows', hrows', hkeys⟩ := h'.resting.scan false pageSize
          rw [hrows'] at hrows
          rw [← hkeys, Except.ok.inj hrows]
          exact hk
        · intro hk
          obtain ⟨rows, hrows, hkeys⟩ := h'.resting.scan false 1
          exact ⟨1, rows, congrArg Prod.fst hrows, by rw [hkeys]; exact hk⟩
      have hholds : ¬ primary.Holds (x.media.1 0) k ↔ holds k = false := by
        unfold Holds
        rw [h.resting.existsKey k]
        cases holds k with
        | false => exact ⟨fun _ => rfl, fun _ htrue => by cases htrue⟩
        | true => exact ⟨fun hnot => absurd rfl hnot, fun hfalse => by cases hfalse⟩
      exact or_congr_right (and_congr hlists hholds)
    refine ⟨_, _, hagree, hresting, fun pageSize => ?_, fun k hk => ?_⟩
    · obtain ⟨pages, hrun, hpart⟩ := hpages pageSize
      exact ⟨pages, hrun, hpart.nodup, fun k => (hpart.mem k).trans (hlacks k).symm, hpart.listed,
        hpart.reads⟩
    · rcases (hlacks k).mp hk with hk | ⟨hk, -⟩
      · show (holds k || holds' k) = true
        rw [h.lacks k hk]
        rfl
      · show (holds k || holds' k) = true
        rw [h'.resting.held k hk, Bool.or_true]
  | mirror dec primary secondary syncPolicy ihp ihs =>
    intro _ x hx
    obtain ⟨holds, listed, h⟩ := ihp (x.media.1 0) hx
    have ha : (Composition.topologyOf (P := Empty) (both primary.composition secondary.composition)
        (fun i => match i with
          | 0 => ⟨"primary", .authority, none, false, .required⟩
          | 1 => ⟨"secondary", .dependent, none, false, syncPolicy⟩)
        (fun _ => .whole) (Fin.elim0 : Fin 0 → IndexLeaf _ _) none none).Alone
          (childTarget (both primary.composition secondary.composition) _
            ⟨"primary", .authority, none, false, .required⟩ 0) :=
      ⟨rfl, rfl, rfl, by show Role.authority ≠ Role.fallback; decide⟩
    obtain ⟨hagree, hresting, hpages⟩ := answered_alone ha "MirrorKvStore" x h.agree h.resting h.pages
    exact ⟨holds, listed, hagree, hresting, hpages, h.lacks⟩
  | indexed dec underlying indexes syncPolicy ih =>
    intro _ x hx
    obtain ⟨holds, listed, h⟩ := ih (x.media.1 0) hx
    have ha : (Composition.topologyOf (P := Empty) (fun _ : Fin 1 => underlying.composition)
        (fun _ => ⟨"store", .authority, none, false, .required⟩) (fun _ => .whole) indexes
        (some syncPolicy) none).Alone
          (childTarget (fun _ : Fin 1 => underlying.composition) _
            ⟨"store", .authority, none, false, .required⟩ 0) :=
      ⟨rfl, rfl, rfl, by show Role.authority ≠ Role.fallback; decide⟩
    obtain ⟨hagree, hresting, hpages⟩ := answered_alone ha "IndexedKvStore" x h.agree h.resting h.pages
    exact ⟨holds, listed, hagree, hresting, hpages, h.lacks⟩

/-- In a state that does not change, the missing keys of all pages are exactly the keys the
    nest lacks, each named once. A key on a page exists, and the page reads of it what a
    read of the whole returns. -/
theorem missingPages_partition {K V : Type} [DecidableEq K] (n : Nesting K V) (x : n.State)
    (hx : n.Still x) (pageSize : Nat) :
    ∃ pages, n.store.missingPages pageSize x = (.ok pages, x) ∧
      (pages.flatMap fun p => p.missing).Nodup ∧
      (∀ k, k ∈ (pages.flatMap fun p => p.missing) ↔ n.Lacks x k) ∧
      ∀ p ∈ pages, ∀ k ∈ p.missing, n.Holds x k ∧ ReadsAs n.store.get x p k := by
  obtain ⟨holds, listed, h⟩ := answered n x hx
  obtain ⟨pages, hrun, hpart⟩ := h.pages pageSize
  refine ⟨pages, hrun, hpart.nodup, hpart.mem, fun p hp k hk => ⟨?_, hpart.reads p hp k hk⟩⟩
  have hlacks := (hpart.mem k).mp (List.mem_flatMap.mpr ⟨p, hp, hk⟩)
  unfold Holds
  rw [h.resting.existsKey k, h.lacks k hlacks]

end Nesting

/-! ## A memory store in which nothing has expired -/

namespace MemoryKvBackend

section Unexpired

variable {K V α VB : Type} [DecidableEq α] (b : MemoryKvBackend K V α VB)

def Unexpired (r : MemoryRoot α VB) : Prop := ∀ p e, b.entryAt r p = some e → expired e r.clock = false

/-- Where nothing has expired, the state is as it was. -/
def Untouched (r r' : MemoryRoot α VB) : Prop := b.Unexpired r → r' = r

instance : Std.Refl b.Untouched := ⟨fun _ _ => rfl⟩

instance : IsTrans _ b.Untouched := ⟨fun r r' r'' h h' hr => by
  have hr' := h hr
  rw [← hr'] at hr
  exact (h' hr).trans hr'⟩

theorem liveEntry_untouched (k : K) : Moves b.Untouched (b.liveEntry k) := by
  intro r hr
  rcases b.liveEntry_state k r with h | ⟨p, e, -, he, hx, -⟩
  · exact h
  · rw [hr p e he] at hx
    cases hx

theorem existsKey_untouched (k : K) : Moves b.Untouched (b.existsKey k) :=
  Moves.map (b.liveEntry_untouched k)

theorem scanOne_untouched (query : ScanQuery K) (p : List α) : Moves b.Untouched (b.scanOne query p) := by
  intro r hr
  unfold scanOne
  rw [bind_apply, read_apply]
  simp only
  cases he : b.entryAt r p with
  | none => rfl
  | some e =>
    simp only
    rw [if_neg (by rw [hr p e he]; decide)]
    split
    · rfl
    · cases b.decodeKeyFromPhysical p with
      | none => rfl
      | some key =>
        simp only
        split
        · have hread := b.deserializeValue_readOnly e.valueBlob r
          rcases hv : b.deserializeValue e.valueBlob r with ⟨e' | v, r'⟩ <;> rw [hv] at hread
          · rw [bind_error hv]
            exact hread
          · rw [bind_ok hv]
            exact hread
        · rfl

theorem unexpired_put {r : MemoryRoot α VB} (hr : b.Unexpired r) (p : List α) (blob : VB)
    (createdAt : Instant) : b.Unexpired (r.put b.collection p blob none createdAt) := by
  intro q e he
  unfold entryAt at he
  rw [MemoryRoot.get?_put] at he
  split at he
  · rw [← Option.some.inj he]
    rfl
  · exact hr q e he

end Unexpired

variable {V : Type}

/-- A scan lists the keys a read finds. -/
theorem map_fst_rows (r : MemoryRoot Char V) (query : ScanQuery (List Char)) (ks : List (List Char)) :
    (ks.filterMap (row r query)).map Prod.fst = ks.filter fun k => (shown r k).isSome := by
  rw [List.map_filterMap, ← List.filterMap_eq_filter]
  congr 1
  funext k
  unfold row shown Option.guard
  simp only [Option.isSome_map]
  cases found r k <;> rfl

theorem plain_resting {r : MemoryRoot Char V} (hr : (plain V).Unexpired r) :
    Resting (plain V).store r (fun k => (shown r k).isSome)
      ((r.bucket (plain V).collection).keys.filter fun k => (shown r k).isSome) where
  existsKey k := Prod.ext ((plain_answers r).existsKey k) ((plain V).existsKey_untouched k r hr)
  batchExists ks := by
    obtain ⟨held, hheld, hmem⟩ := (plain_answers r).batchExists ks
    have hmoves : Moves (plain V).Untouched ((plain V).batchExists ks) := by
      refine Moves.foldlM (fun out k _ => ((plain V).existsKey_untouched k).bind fun held => ?_) ∅
      cases held <;> exact Moves.pure _
    exact ⟨held, Prod.ext hheld (hmoves r hr), hmem⟩
  scan includeValues pageSize := by
    have hmoves : Moves (plain V).Untouched ((plain V).scanEntries ⟨none, includeValues, pageSize⟩) :=
      (Moves.read _).bind fun r' => (Moves.mapM fun p _ => (plain V).scanOne_untouched _ p).bind fun _ =>
        Moves.pure _
    exact ⟨_, Prod.ext (scanEntries_rows rfl r) (hmoves r hr), map_fst_rows r _ _⟩
  nodup := (r.bucket (plain V).collection).nodup.filter _
  held k hk := (List.mem_filter.mp hk).2

theorem plain_still {r : MemoryRoot Char V} (hr : (plain V).Unexpired r) :
    (Composition.memoryLeaf (plain V)).Still r := by
  refine ⟨Composition.memoryLeaf_agree (plain V), ?_⟩
  intro inst
  obtain rfl : inst = instDecidableEqList := Subsingleton.elim _ _
  refine ⟨_, _, plain_resting hr, fun k hk => List.mem_filter.mpr ⟨?_, hk⟩, fun _ => rfl⟩
  unfold shown at hk
  rw [Option.isSome_map] at hk
  obtain ⟨e, he⟩ := Option.isSome_iff_exists.mp hk
  exact Dict.mem_keys.mpr ⟨e, (Option.filter_eq_some_iff.mp he).1⟩

end MemoryKvBackend

/-- A mirrored store, and two fallbacks behind it. -/
def besideHeld : Nesting (List Char) String :=
  .fallbackRead inferInstance
    (.fallbackRead inferInstance
      (.mirror inferInstance (.leaf (Composition.memoryLeaf (MemoryKvBackend.plain String)))
        (.leaf (Composition.memoryLeaf (MemoryKvBackend.plain String))) .required)
      (.leaf (Composition.memoryLeaf (MemoryKvBackend.plain String))) true)
    (.leaf (Composition.memoryLeaf (MemoryKvBackend.plain String))) true

/-- `a` and `b`, which the first fallback holds. -/
def firstFallback : MemoryRoot Char String :=
  ((MemoryRoot.empty 0).put "items:v1" ['a'] "x" none 0).put "items:v1" ['b'] "y" none 0

/-- `b` again, and `c`. -/
def secondFallback : MemoryRoot Char String :=
  ((MemoryRoot.empty 0).put "items:v1" ['b'] "other" none 0).put "items:v1" ['c'] "z" none 0

/-- Nothing in the mirrored store. -/
def besideHeldState : besideHeld.State :=
  Composition.pairState (Composition.pairState
    (Composition.pairState (MemoryRoot.empty 0) (MemoryRoot.empty 0)) firstFallback) secondFallback

theorem missingPages_partition_besideHeld :
    ∃ pages, besideHeld.store.missingPages 1 besideHeldState = (.ok pages, besideHeldState) ∧
      (pages.flatMap fun p => p.missing).Nodup ∧
      (∀ k, k ∈ (pages.flatMap fun p => p.missing) ↔ besideHeld.Lacks besideHeldState k) ∧
      ∀ p ∈ pages, ∀ k ∈ p.missing, besideHeld.Holds besideHeldState k ∧
        ReadsAs besideHeld.store.get besideHeldState p k := by
  have hempty : (MemoryKvBackend.plain String).Unexpired (MemoryRoot.empty 0) := fun p e he => by cases he
  have hfirst : (MemoryKvBackend.plain String).Unexpired firstFallback :=
    MemoryKvBackend.unexpired_put _ (MemoryKvBackend.unexpired_put _ hempty ['a'] "x" 0) ['b'] "y" 0
  have hsecond : (MemoryKvBackend.plain String).Unexpired secondFallback :=
    MemoryKvBackend.unexpired_put _ (MemoryKvBackend.unexpired_put _ hempty ['b'] "other" 0) ['c'] "z" 0
  exact Nesting.missingPages_partition besideHeld besideHeldState
    ⟨⟨MemoryKvBackend.plain_still hempty, MemoryKvBackend.plain_still hfirst⟩,
      MemoryKvBackend.plain_still hsecond⟩ 1

end Kvtsjl
