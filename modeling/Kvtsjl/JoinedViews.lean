import Kvtsjl.FanOut

/-
  Views that read a second store, or a collection, for each value of the first.
  `then_with` reads its right store at a key made of what the left one holds, `expand_map` folds the
  collection a value stands for. Nested in any way, such a view reads as its stores do together
  (`JoinView.view_reads`), and its scans list the keys of the store at the bottom (`JoinView.view_scans`).
-/

namespace Kvtsjl

open Assoc (Dict)
open Effects Prog

/-- A store as its readers see it: `ReadableKvStore` and `ScannableMixin`. -/
structure ReadStore (S K V : Type) extends ReadableKvStore S K V where
  scanRows : ScanSpec K V → M S (List (ScanRow K V))

def ReadStore.scannable {S K V : Type} (r : ReadStore S K V) : Scannable S K V := ⟨r.scanRows, r.batchGet⟩

/-! ## A right store behind a left one -/

section Then

variable {S K T J V : Type} [DecidableEq K] [ScanKey K] [DecidableEq J]

/-- `ThenWithKeyMap.batch_get`: two reads, of different keys each. -/
def thenWithBatchGet (left : List K → M S (Dict K T)) (keyOf : K → T → J) (right : List J → M S (Dict J V))
    (keys : List K) : M S (Dict K V) :=
  if keys.isEmpty then pure Dict.empty
  else do
    let leftFound ← left (Dict.unique keys)
    let midOf := leftFound.map keyOf
    let rightFound ← right (Dict.unique (midOf.entries.map Prod.snd))
    return midOf.collect fun _ mid => rightFound.get? mid

/-- What is read of the right store for a key, or what is answered where the left store has none. -/
def throughLeft {β : Type} (left : K → M S (Option T)) (keyOf : K → T → J) (right : J → M S β) (missing : β)
    (key : K) : M S β := do
  match ← left key with
  | none => return missing
  | some value => right (keyOf key value)

/-- A point form asked of each key: a batch without one of its own. -/
def existsEach (existsKey : K → M S Bool) (keys : List K) : M S (Finset K) :=
  keys.foldlM (fun out key => do if ← existsKey key then pure (insert key out) else pure out) ∅

/-- `ThenWithKvStore` -/
def thenWithKvStore (left : ReadStore S K T) (keyOf : K → T → J) (right : ReadStore S J V) : ReadStore S K V where
  get := throughLeft left.get keyOf right.get none
  batchGet := thenWithBatchGet left.batchGet keyOf right.batchGet
  existsKey := throughLeft left.get keyOf right.existsKey false
  batchExists := existsEach (throughLeft left.get keyOf right.existsKey false)
  stat := throughLeft left.get keyOf right.stat none
  batchStat := defaultBatchGet (throughLeft left.get keyOf right.stat none)
  scanEntries := passthroughScanEntries (thenWithBatchGet left.batchGet keyOf right.batchGet) left.scanEntries
  scanRows := passthroughScanRows (thenWithBatchGet left.batchGet keyOf right.batchGet) left.scannable

/-- `ThenKvStore`: the left value is the right key. -/
def thenKvStore (left : ReadStore S K J) (right : ReadStore S J V) : ReadStore S K V :=
  thenWithKvStore left (fun _ mid => mid) right

end Then

/-! ## A collection behind each value -/

section Expand

variable {S K T SK SV U : Type} [DecidableEq K] [ScanKey K] [DecidableEq SK]

/-- What an expander may answer. A `ReadableKeyMap` is what it answers for its keys. -/
inductive Expansion (SK SV : Type) where
  | keyMap (get : SK → Option SV)
  | mapping (col : Dict SK SV)
  | pairs (col : List (SK × SV))

/-- `as_keymap` -/
def asKeymap : Expansion SK SV → SK → Option SV
  | .keyMap get => get
  | .mapping col => col.get?
  | .pairs col => (col.foldl (fun d p => d.set p.1 p.2) (Dict.empty : Dict SK SV)).get?

/-- What `expand` and `expand_map` have in common: a value read for what is made of it. All but the values
    are the source's. -/
def expandedKvStore (src : ReadStore S K T) (made : K → T → Option U) : ReadStore S K U where
  get key := do return (← src.get key).bind (made key)
  batchGet := expandedBatchGet
  existsKey := src.existsKey
  batchExists := src.batchExists
  stat := src.stat
  batchStat := src.batchStat
  scanEntries := passthroughScanEntries expandedBatchGet src.scanEntries
  scanRows := passthroughScanRows expandedBatchGet src.scannable
where
  expandedBatchGet (keys : List K) : M S (Dict K U) :=
    if keys.isEmpty then pure Dict.empty
    else do
      let found ← src.batchGet (Dict.unique keys)
      return found.collect made

/-- `ExpandKvStore` -/
def expandKvStore (src : ReadStore S K T) (expander : K → T → Expansion SK SV) : ReadStore S K (SK → Option SV) :=
  expandedKvStore src fun key value => some (asKeymap (expander key value))

/-- `ExpandMapKvStore`. What the aggregate answers nothing for, is left out. -/
def expandMapKvStore (src : ReadStore S K T) (expander : K → T → Expansion SK SV)
    (aggregate : K → T → (SK → Option SV) → Option U) : ReadStore S K U :=
  expandedKvStore src fun key value => aggregate key value (asKeymap (expander key value))

end Expand

/-! ## What a store shows -/

/-- From a state with `I`, `m` comes to `r`: it returns that and keeps `I`, or raises it. -/
def Yields {S α : Type} (I : S → Prop) (m : M S α) (r : Except Exn α) : Prop :=
  ∀ s, I s → (m s).1 = r ∧ (r.toOption.isSome = true → I (m s).2)

section Yields

variable {S α β : Type} {I : S → Prop} {m : M S α} {f : α → β}

theorem Yields.returns {b : β} (h : Yields I (f <$> m) (.ok b)) : Returns I m fun a => f a = b := by
  intro s hs
  obtain ⟨hok, hI⟩ := h s hs
  rw [map_apply] at hok hI
  cases hm : (m s).1 with
  | error e =>
    rw [hm] at hok
    cases hok
  | ok a =>
    rw [hm] at hok
    exact ⟨hI rfl, a, rfl, Except.ok.inj hok⟩

theorem Yields.error {e : Exn} (h : Yields I (f <$> m) (.error e)) {s : S} (hs : I s) : (m s).1 = .error e := by
  have herror := (h s hs).1
  rw [map_apply] at herror
  cases hm : (m s).1 with
  | error e' =>
    rw [hm] at herror
    exact congrArg Except.error (Except.error.inj herror)
  | ok a =>
    rw [hm] at herror
    cases herror

theorem Yields.of_returns {a : α} (h : Returns I m fun b => b = a) : Yields I m (.ok a) := by
  intro s hs
  obtain ⟨hI, b, hb, rfl⟩ := h s hs
  exact ⟨hb, fun _ => hI⟩

theorem Yields.map_eq {r : Except Exn α} (h : Yields I m r) {r' : Except Exn β} (hr : r.map f = r') :
    Yields I (f <$> m) r' := by
  intro s hs
  obtain ⟨hresult, hI⟩ := h s hs
  rw [map_apply]
  refine ⟨by rw [hresult, hr], fun hok => hI ?_⟩
  rw [← hr] at hok
  cases r with
  | error e => cases hok
  | ok a => rfl

end Yields

namespace ReadStore

section Shows

variable {S K T J V U : Type} [DecidableEq K] [ScanKey K] [DecidableEq J] [ScanKey J] {I : S → Prop}

/-- Every read answers from one content and one table of stats, from any state with `I`. -/
structure Shows (I : S → Prop) (r : ReadStore S K V) (content : K → Option V) (stats : K → Option RecordStat) :
    Prop where
  get : ∀ k, Returns I (r.get k) fun v => v = content k
  batchGet : ∀ ks, Returns I (r.batchGet ks) fun d => ∀ k, d.get? k = if k ∈ ks then content k else none
  existsKey : ∀ k, Returns I (r.existsKey k) fun b => b = (stats k).isSome
  batchExists : ∀ ks, Returns I (r.batchExists ks) fun held => ∀ k, k ∈ held ↔ k ∈ ks ∧ (stats k).isSome = true
  stat : ∀ k, Returns I (r.stat k) fun m => m = stats k
  batchStat : ∀ ks, Returns I (r.batchStat ks) fun d => ∀ k, d.get? k = if k ∈ ks then stats k else none

omit [ScanKey K] in
theorem Shows.steady {r : ReadStore S K V} {content : K → Option V} {stats : K → Option RecordStat}
    (h : r.Shows I content stats) : Steady I content r.batchGet := by
  intro keys s hs
  obtain ⟨hI, found, hfound, hget⟩ := h.batchGet keys s hs
  exact ⟨found, _, Prod.ext hfound rfl, hI, fun k hk => by rw [hget, if_pos hk]⟩

/-! ### Loops of point reads -/

omit [ScanKey K] in
theorem defaultBatchGet_returns {β : Type} {get : K → M S (Option β)} {answer : K → Option β}
    (h : ∀ k, Returns I (get k) fun v => v = answer k) (ks : List K) :
    Returns I (defaultBatchGet get ks) fun d => ∀ k, d.get? k = if k ∈ ks then answer k else none := by
  refine (Returns.foldlM (p := fun done (d : Dict K β) => ∀ k, d.get? k = if k ∈ done then answer k else none)
    (fun done d x hd => ?_) [] Dict.empty fun k => rfl)
  refine (h x).bind fun v hv => ?_
  have hmore : ∀ k, (if k ∈ done ++ [x] then answer k else none) = if k = x then answer x else d.get? k := by
    intro k
    rw [hd k]
    by_cases hk : k = x
    · rw [if_pos hk, if_pos (List.mem_append_right _ (List.mem_singleton.mpr hk)), hk]
    · rw [if_neg hk]
      refine if_congr ?_ rfl rfl
      rw [List.mem_append, List.mem_singleton, or_iff_left hk]
  cases hx : answer x with
  | none =>
    rw [hv, hx]
    refine Returns.pure fun k => ?_
    rw [hmore]
    by_cases hk : k = x
    · rw [if_pos hk, hd k, hk, hx, ite_self]
    · rw [if_neg hk]
  | some b =>
    rw [hv, hx]
    refine Returns.pure fun k => ?_
    rw [hmore, hx, Dict.get?_set]

omit [ScanKey K] in
theorem existsEach_returns {existsKey : K → M S Bool} {answer : K → Bool}
    (h : ∀ k, Returns I (existsKey k) fun b => b = answer k) (ks : List K) :
    Returns I (existsEach existsKey ks) fun held => ∀ k, k ∈ held ↔ k ∈ ks ∧ answer k = true := by
  refine (Returns.foldlM (p := fun done (held : Finset K) => ∀ k, k ∈ held ↔ k ∈ done ∧ answer k = true)
    (fun done held x hheld => ?_) [] ∅ fun k => by simp)
  refine (h x).bind fun b hb => ?_
  cases hx : answer x with
  | false =>
    rw [hb, hx]
    refine Returns.pure fun k => ?_
    rw [hheld, List.mem_append, List.mem_singleton]
    refine ⟨fun hk => ⟨.inl hk.1, hk.2⟩, fun ⟨hk, hanswer⟩ => ⟨hk.resolve_right fun hkx => ?_, hanswer⟩⟩
    rw [hkx, hx] at hanswer
    cases hanswer
  | true =>
    rw [hb, hx]
    refine Returns.pure fun k => ?_
    rw [Finset.mem_insert, hheld, List.mem_append, List.mem_singleton]
    constructor
    · rintro (rfl | hk)
      · exact ⟨.inr rfl, hx⟩
      · exact ⟨.inl hk.1, hk.2⟩
    · rintro ⟨hk | hk, hanswer⟩
      · exact .inr ⟨hk, hanswer⟩
      · exact .inl hk

/-! ### What the views show -/

omit [DecidableEq K] [ScanKey K] [DecidableEq J] [ScanKey J] in
theorem throughLeft_returns {β : Type} {left : K → M S (Option T)} {keyOf : K → T → J} {right : J → M S β}
    {missing : β} {held : K → Option T} {answer : J → β} (hl : ∀ k, Returns I (left k) fun v => v = held k)
    (hr : ∀ j, Returns I (right j) fun b => b = answer j) (k : K) :
    Returns I (throughLeft left keyOf right missing k)
      fun b => b = ((held k).map fun value => answer (keyOf k value)).getD missing := by
  unfold throughLeft
  refine (hl k).bind fun v hv => ?_
  rw [← hv]
  cases v with
  | none => exact Returns.pure rfl
  | some value => exact hr _

omit [ScanKey K] [ScanKey J] in
theorem thenWithBatchGet_returns {left : List K → M S (Dict K T)} {keyOf : K → T → J} {right : List J → M S (Dict J V)}
    {held : K → Option T} {answer : J → Option V}
    (hl : ∀ ks, Returns I (left ks) fun d => ∀ k, d.get? k = if k ∈ ks then held k else none)
    (hr : ∀ js, Returns I (right js) fun d => ∀ j, d.get? j = if j ∈ js then answer j else none) (ks : List K) :
    Returns I (thenWithBatchGet left keyOf right ks)
      fun d => ∀ k, d.get? k = if k ∈ ks then (held k).bind fun value => answer (keyOf k value) else none := by
  unfold thenWithBatchGet
  split
  · next hempty =>
    rw [List.isEmpty_iff.mp hempty]
    exact Returns.pure fun k => rfl
  · refine (hl _).bind fun found hfound => (hr _).bind fun values hvalues => Returns.pure fun k => ?_
    rw [Dict.get?_collect, Dict.get?_map, hfound k]
    simp only [Dict.mem_unique]
    split
    · next hk =>
      cases hheld : held k with
      | none => rfl
      | some value =>
        -- what was found of the left store has its key read of the right one
        have hmid : (k, keyOf k value) ∈ (found.map keyOf).entries := by
          refine Dict.mem_entries.mpr ?_
          rw [Dict.get?_map, hfound k, if_pos (Dict.mem_unique.mpr hk), hheld]
          rfl
        show values.get? (keyOf k value) = answer (keyOf k value)
        rw [hvalues, if_pos (Dict.mem_unique.mpr (List.mem_map_of_mem hmid))]
    · rfl

omit [ScanKey J] in
theorem thenWith_shows {left : ReadStore S K T} {keyOf : K → T → J} {right : ReadStore S J V} {held : K → Option T}
    {heldStats : K → Option RecordStat} {content : J → Option V} {stats : J → Option RecordStat}
    (hl : left.Shows I held heldStats) (hr : right.Shows I content stats) :
    (thenWithKvStore left keyOf right).Shows I (fun k => (held k).bind fun value => content (keyOf k value))
      fun k => (held k).bind fun value => stats (keyOf k value) := by
  have hget : ∀ k, Returns I ((thenWithKvStore left keyOf right).get k)
      fun v => v = (held k).bind fun value => content (keyOf k value) := fun k =>
    (throughLeft_returns hl.get hr.get k).congr fun v hv => by rw [hv]; cases held k <;> rfl
  have hexists : ∀ k, Returns I ((thenWithKvStore left keyOf right).existsKey k)
      fun b => b = ((held k).bind fun value => stats (keyOf k value)).isSome := fun k =>
    (throughLeft_returns hl.get hr.existsKey k).congr fun b hb => by rw [hb]; cases held k <;> rfl
  have hstat : ∀ k, Returns I ((thenWithKvStore left keyOf right).stat k)
      fun m => m = (held k).bind fun value => stats (keyOf k value) := fun k =>
    (throughLeft_returns hl.get hr.stat k).congr fun m hm => by rw [hm]; cases held k <;> rfl
  exact ⟨hget, thenWithBatchGet_returns hl.batchGet hr.batchGet, hexists, existsEach_returns hexists, hstat,
    defaultBatchGet_returns hstat⟩

theorem expanded_shows {src : ReadStore S K T} {made : K → T → Option U} {held : K → Option T}
    {stats : K → Option RecordStat} (h : src.Shows I held stats) :
    (expandedKvStore src made).Shows I (fun k => (held k).bind (made k)) stats := by
  refine ⟨fun k => ?_, fun ks => ?_, h.existsKey, h.batchExists, h.stat, h.batchStat⟩
  · exact (h.get k).bind fun v hv => Returns.pure (by rw [hv])
  · show Returns I (expandedKvStore.expandedBatchGet src made ks) _
    unfold expandedKvStore.expandedBatchGet
    split
    · next hempty =>
      rw [List.isEmpty_iff.mp hempty]
      exact Returns.pure fun k => rfl
    · refine (h.batchGet _).bind fun found hfound => Returns.pure fun k => ?_
      rw [Dict.get?_collect, hfound k]
      simp only [Dict.mem_unique]
      split <;> rfl

end Shows

end ReadStore

/-! ## Views over views -/

/-- A store to read through, with what it shows and lists: the keys of a listing under a prefix, and of a
    scan that asks about keys alone. It may refuse either. Such a scan gives no key twice, and only keys
    that pass what is asked about keys. -/
structure Source {S : Type} (I : S → Prop) (K V : Type) [DecidableEq K] [ScanKey K] where
  store : ReadStore S K V
  content : K → Option V
  stats : K → Option RecordStat
  shows_content : store.Shows I content stats
  entryKeys : ScanQuery K → Except Exn (List K)
  lists : ∀ pre pageSize, Yields I (List.map Prod.fst <$> store.scanEntries ⟨pre, false, pageSize⟩)
    (entryKeys ⟨pre, false, pageSize⟩)
  rowKeys : ScanSpec K V → Except Exn (List K)
  scans : ∀ {U : Type} (spec : ScanSpec K U),
    Yields I (List.map (fun row => row.key) <$> store.scanRows spec.keyHalf) (rowKeys spec.keyHalf)
  nodup : ∀ {U : Type} (spec : ScanSpec K U) keys, rowKeys spec.keyHalf = .ok keys → keys.Nodup
  passes : ∀ {U : Type} (spec : ScanSpec K U) keys, rowKeys spec.keyHalf = .ok keys → ∀ k ∈ keys,
    spec.where_.splitKeyPredicates.1.evaluate (bareRow (k, none)) = true

/-- A store, and the views of it that read another store or a collection for its values. -/
inductive JoinView {S : Type} (I : S → Prop) : (K : Type) → [DecidableEq K] → [ScanKey K] → Type → Type 1 where
  | source {K V : Type} [DecidableEq K] [ScanKey K] (src : Source I K V) : JoinView I K V
  | thenWith {K T J V : Type} [DecidableEq K] [ScanKey K] [DecidableEq J] [ScanKey J] (left : JoinView I K T)
      (keyOf : K → T → J) (right : JoinView I J V) : JoinView I K V
  | thenStore {K J V : Type} [DecidableEq K] [ScanKey K] [DecidableEq J] [ScanKey J] (left : JoinView I K J)
      (right : JoinView I J V) : JoinView I K V
  | expand {K T SK SV : Type} [DecidableEq K] [ScanKey K] [DecidableEq SK] (src : JoinView I K T)
      (expander : K → T → Expansion SK SV) : JoinView I K (SK → Option SV)
  | expandMap {K T SK SV U : Type} [DecidableEq K] [ScanKey K] [DecidableEq SK] (src : JoinView I K T)
      (expander : K → T → Expansion SK SV) (aggregate : K → T → (SK → Option SV) → Option U) : JoinView I K U

namespace JoinView

variable {S : Type} {I : S → Prop}

def store : {K : Type} → [DecidableEq K] → [ScanKey K] → {V : Type} → JoinView I K V → ReadStore S K V
  | _, _, _, _, @source _ _ _ _ _ _ src => src.store
  | _, _, _, _, @thenWith _ _ _ _ _ _ _ _ _ _ left keyOf right => thenWithKvStore left.store keyOf right.store
  | _, _, _, _, @thenStore _ _ _ _ _ _ _ _ _ left right => thenKvStore left.store right.store
  | _, _, _, _, @expand _ _ _ _ _ _ _ _ _ src expander => expandKvStore src.store expander
  | _, _, _, _, @expandMap _ _ _ _ _ _ _ _ _ _ src expander aggregate => expandMapKvStore src.store expander aggregate

/-- What a key is read as. -/
def content : {K : Type} → [DecidableEq K] → [ScanKey K] → {V : Type} → JoinView I K V → K → Option V
  | _, _, _, _, @source _ _ _ _ _ _ src => src.content
  | _, _, _, _, @thenWith _ _ _ _ _ _ _ _ _ _ left keyOf right => fun k =>
    (left.content k).bind fun value => right.content (keyOf k value)
  | _, _, _, _, @thenStore _ _ _ _ _ _ _ _ _ left right => fun k => (left.content k).bind fun mid => right.content mid
  | _, _, _, _, @expand _ _ _ _ _ _ _ _ _ src expander => fun k =>
    (src.content k).map fun value => asKeymap (expander k value)
  | _, _, _, _, @expandMap _ _ _ _ _ _ _ _ _ _ src expander aggregate => fun k =>
    (src.content k).bind fun value => aggregate k value (asKeymap (expander k value))

/-- What a key's existence and its stat come from: the last store that is read, whatever is made of the
    value. -/
def stats : {K : Type} → [DecidableEq K] → [ScanKey K] → {V : Type} → JoinView I K V → K → Option RecordStat
  | _, _, _, _, @source _ _ _ _ _ _ src => src.stats
  | _, _, _, _, @thenWith _ _ _ _ _ _ _ _ _ _ left keyOf right => fun k =>
    (left.content k).bind fun value => right.stats (keyOf k value)
  | _, _, _, _, @thenStore _ _ _ _ _ _ _ _ _ left right => fun k => (left.content k).bind fun mid => right.stats mid
  | _, _, _, _, @expand _ _ _ _ _ _ _ _ _ src _ => src.stats
  | _, _, _, _, @expandMap _ _ _ _ _ _ _ _ _ _ src _ _ => src.stats

/-- The store whose keys are listed. -/
def bottom : {K : Type} → [DecidableEq K] → [ScanKey K] → {V : Type} → JoinView I K V → (T : Type) × Source I K T
  | _, _, _, _, @source _ _ _ _ _ _ src => ⟨_, src⟩
  | _, _, _, _, @thenWith _ _ _ _ _ _ _ _ _ _ left _ _ => left.bottom
  | _, _, _, _, @thenStore _ _ _ _ _ _ _ _ _ left _ => left.bottom
  | _, _, _, _, @expand _ _ _ _ _ _ _ _ _ src _ => src.bottom
  | _, _, _, _, @expandMap _ _ _ _ _ _ _ _ _ _ src _ _ => src.bottom

/-- It is a view, and not a store as it is. -/
def joins : {K : Type} → [DecidableEq K] → [ScanKey K] → {V : Type} → JoinView I K V → Bool
  | _, _, _, _, @source .. => false
  | _, _, _, _, _ => true

/-- Whatever the views are nested in, every read of theirs, one key at a time or in a batch, answers from
    what their stores hold together. -/
theorem view_reads {K : Type} [DecidableEq K] [ScanKey K] {V : Type} (v : JoinView I K V) :
    v.store.Shows I v.content v.stats := by
  induction v with
  | source src => exact src.shows_content
  | thenWith left keyOf right ihl ihr => exact ReadStore.thenWith_shows ihl ihr
  | thenStore left right ihl ihr => exact ReadStore.thenWith_shows ihl ihr
  | expand src expander ih =>
    have h : (expandKvStore src.store expander).Shows I
        (fun k => (src.content k).bind fun value => some (asKeymap (expander k value))) src.stats :=
      ReadStore.expanded_shows ih
    have hmap : ∀ k, (src.content k).bind (fun value => some (asKeymap (expander k value))) =
        (src.content k).map fun value => asKeymap (expander k value) := fun k => (Option.map_eq_bind).symm
    simp only [hmap] at h
    exact h
  | expandMap src expander aggregate ih => exact ReadStore.expanded_shows ih

/-! ### Their scans -/

section Scans

variable {K : Type} [DecidableEq K] [ScanKey K] {T V : Type} {content : K → Option V}
  {batchGet : List K → M S (Dict K V)} {src : ReadStore S K T}

omit [ScanKey K] in
theorem passthroughScanEntries_yields (h : Steady I content batchGet) {query : ScanQuery K} {r : Except Exn (List K)}
    (hsrc : Yields I (List.map Prod.fst <$> src.scanEntries ⟨query.keyPrefix, false, query.pageSize⟩) r) :
    Yields I (passthroughScanEntries batchGet src.scanEntries query)
      (r.map fun keys => keys.map fun k => (k, if query.includeValues then content k else none)) := by
  cases r with
  | error e =>
    intro s hs
    unfold passthroughScanEntries
    rw [bind_error (Prod.ext (Yields.error hsrc hs) rfl)]
    exact ⟨rfl, fun hok => by cases hok⟩
  | ok keys => exact Yields.of_returns (passthroughScanEntries_run h (Yields.returns hsrc))

theorem passthroughScanRows_yields (h : Steady I content batchGet) {spec : ScanSpec K V} {r : Except Exn (List K)}
    (hsrc : Yields I (List.map (fun row => row.key) <$> src.scanRows spec.keyHalf) r)
    (hnodup : ∀ keys, r = .ok keys → keys.Nodup)
    (hpass : ∀ keys, r = .ok keys → ∀ k ∈ keys,
      spec.where_.splitKeyPredicates.1.evaluate (bareRow (k, none)) = true) :
    Yields I (passthroughScanRows batchGet src.scannable spec) (r.map fun keys =>
      cut (spec.call spec.where_.splitKeyPredicates.2) (keys.filterMap (joinedRow spec content))) := by
  cases r with
  | error e =>
    intro s hs
    have hrefused : (src.scannable.scanRows spec.keyHalf s).1 = .error e := Yields.error hsrc hs
    rw [passthroughScanRows_refused hrefused]
    exact ⟨rfl, fun hok => by cases hok⟩
  | ok keys =>
    exact Yields.of_returns (passthroughScanRows_run h (hnodup keys rfl) (hpass keys rfl) (Yields.returns hsrc))

omit [DecidableEq K] in
/-- Asked for keys, a view gives every key its source gives. -/
theorem joinedRow_keyHalf {U : Type} {spec : ScanSpec K U} {k : K}
    (hpass : spec.where_.splitKeyPredicates.1.evaluate (bareRow (k, none)) = true) :
    joinedRow spec.keyHalf content k = some (bareRow (k, none)) := by
  have hsplit : (spec.keyHalf : ScanSpec K V).where_.splitKeyPredicates =
      (spec.where_.splitKeyPredicates.1.overKeys, .alwaysTrue) := by
    show (spec.where_.splitKeyPredicates.1.overKeys : Predicate K V).splitKeyPredicates = _
    rw [Predicate.splitKeyPredicates_overKeys, Predicate.splitKeyPredicates_split]
    rfl
  have hwhere : (spec.keyHalf : ScanSpec K V).where_.evaluate (bareRow (k, none)) = true := by
    rw [← hpass]
    exact Predicate.evaluate_overKeys (Predicate.isKeyOnly_splitKeyPredicates _) rfl
  unfold joinedRow
  rw [hsplit]
  show (if (spec.keyHalf : ScanSpec K V).where_.evaluate (bareRow (k, none)) && true then _ else none) = _
  rw [hwhere]
  rfl

theorem keys_through {b : (T : Type) × Source I K T} (h : Steady I content batchGet)
    (hsrc : ∀ {U : Type} (spec : ScanSpec K U),
      Yields I (List.map (fun row => row.key) <$> src.scanRows spec.keyHalf) (b.2.rowKeys spec.keyHalf))
    {U : Type} (spec : ScanSpec K U) :
    Yields I (List.map (fun row => row.key) <$> passthroughScanRows batchGet src.scannable spec.keyHalf)
      (b.2.rowKeys spec.keyHalf) := by
  have hkeys : (spec.keyHalf : ScanSpec K V).keyHalf = (spec.keyHalf : ScanSpec K b.1) := spec.keyHalf_keyHalf
  have hrun := passthroughScanRows_yields h (hsrc (spec.keyHalf : ScanSpec K V)) (b.2.nodup _) (b.2.passes _)
  rw [hkeys] at hrun
  refine Yields.map_eq hrun ?_
  cases hr : b.2.rowKeys spec.keyHalf with
  | error e => rfl
  | ok keys =>
    have hrows : keys.filterMap (joinedRow (spec.keyHalf : ScanSpec K V) content) =
        keys.map fun k => bareRow (k, none) := by
      rw [← List.filterMap_eq_map]
      exact List.filterMap_congr fun k hk => joinedRow_keyHalf (b.2.passes spec keys hr k hk)
    show Except.ok ((cut _ (keys.filterMap (joinedRow (spec.keyHalf : ScanSpec K V) content))).map _) = _
    rw [hrows]
    show Except.ok ((keys.map fun k => bareRow (k, none)).map _) = _
    rw [List.map_map]
    exact congrArg _ (List.map_id keys)

theorem entries_through {b : (T : Type) × Source I K T} (h : Steady I content batchGet)
    (hsrc : ∀ pre pageSize, Yields I (List.map Prod.fst <$> src.scanEntries ⟨pre, false, pageSize⟩)
      (b.2.entryKeys ⟨pre, false, pageSize⟩)) (pre : Option K) (pageSize : Nat) :
    Yields I (List.map Prod.fst <$> passthroughScanEntries batchGet src.scanEntries ⟨pre, false, pageSize⟩)
      (b.2.entryKeys ⟨pre, false, pageSize⟩) := by
  have hrun : Yields I (passthroughScanEntries batchGet src.scanEntries ⟨pre, false, pageSize⟩) _ :=
    passthroughScanEntries_yields h (hsrc pre pageSize)
  refine Yields.map_eq hrun ?_
  cases b.2.entryKeys ⟨pre, false, pageSize⟩ with
  | error e => rfl
  | ok keys =>
    show Except.ok ((keys.map _).map _) = _
    rw [List.map_map]
    exact congrArg _ (List.map_id keys)

end Scans

theorem steady {K : Type} [DecidableEq K] [ScanKey K] {V : Type} (v : JoinView I K V) :
    Steady I v.content v.store.batchGet := v.view_reads.steady

/-- Asked for keys alone, a view gives those of the store at the bottom. -/
theorem scans_keys {K : Type} [DecidableEq K] [ScanKey K] {V : Type} (v : JoinView I K V) :
    ∀ {U : Type} (spec : ScanSpec K U), Yields I (List.map (fun row => row.key) <$> v.store.scanRows spec.keyHalf)
      (v.bottom.2.rowKeys spec.keyHalf) := by
  induction v with
  | source src => exact src.scans
  | thenWith left keyOf right ihl _ => exact keys_through (steady (.thenWith left keyOf right)) ihl
  | thenStore left right ihl _ => exact keys_through (steady (.thenStore left right)) ihl
  | expand src expander ih => exact keys_through (steady (.expand src expander)) ih
  | expandMap src expander aggregate ih => exact keys_through (steady (.expandMap src expander aggregate)) ih

theorem lists_keys {K : Type} [DecidableEq K] [ScanKey K] {V : Type} (v : JoinView I K V) :
    ∀ pre pageSize, Yields I (List.map Prod.fst <$> v.store.scanEntries ⟨pre, false, pageSize⟩)
      (v.bottom.2.entryKeys ⟨pre, false, pageSize⟩) := by
  induction v with
  | source src => exact src.lists
  | thenWith left keyOf right ihl _ => exact entries_through (steady (.thenWith left keyOf right)) ihl
  | thenStore left right ihl _ => exact entries_through (steady (.thenStore left right)) ihl
  | expand src expander ih => exact entries_through (steady (.expand src expander)) ih
  | expandMap src expander aggregate ih => exact entries_through (steady (.expandMap src expander aggregate)) ih

theorem scans_through {K : Type} [DecidableEq K] [ScanKey K] {T V : Type} (v : JoinView I K V) (src : JoinView I K T)
    (hbottom : v.bottom = src.bottom)
    (hentries : v.store.scanEntries = passthroughScanEntries v.store.batchGet src.store.scanEntries)
    (hrows : v.store.scanRows = passthroughScanRows v.store.batchGet src.store.scannable) :
    (∀ query, Yields I (v.store.scanEntries query)
      ((v.bottom.2.entryKeys ⟨query.keyPrefix, false, query.pageSize⟩).map fun keys =>
        keys.map fun k => (k, if query.includeValues then v.content k else none))) ∧
    (∀ spec, Yields I (v.store.scanRows spec) ((v.bottom.2.rowKeys spec.keyHalf).map fun keys =>
      cut (spec.call spec.where_.splitKeyPredicates.2) (keys.filterMap (joinedRow spec v.content)))) := by
  rw [hbottom, hentries, hrows]
  refine ⟨fun query => passthroughScanEntries_yields (steady v) (lists_keys src query.keyPrefix query.pageSize),
    fun spec => ?_⟩
  exact passthroughScanRows_yields (steady v) (scans_keys src spec) (src.bottom.2.nodup spec) (src.bottom.2.passes spec)

end JoinView

end Kvtsjl
