import Kvtsjl.Answers

/-
  A view of a store's values, `map` and `imap`, when `forward` may answer nothing.
  Point and batch reads apply `forward`, and take a value without an image for an absent
  one. `exists`, `stat` and their batches ask the source without applying it, and a scan
  lists the key all the same.
-/

namespace Kvtsjl

open Assoc (Dict)
open Effects Prog

section Views

variable {σ K T U : Type} [DecidableEq K]

/-- What both value views are, as reads. A scan streams the source's values and maps them
    here. -/
def valueView (src : ReadableKvStore σ K T) (forward : T → Option U) : ReadableKvStore σ K U where
  get key := do
    match ← src.get key with
    | none => return none
    | some value => return forward value
  batchGet keys :=
    if keys.isEmpty then pure Dict.empty
    else do
      let found ← src.batchGet (Dict.unique keys)
      return found.collect fun _ v => forward v
  existsKey := src.existsKey
  batchExists := src.batchExists
  stat := src.stat
  batchStat := src.batchStat
  scanEntries query :=
    List.map (fun e => (e.1, e.2.bind forward)) <$> src.scanEntries { query with includeValues := true }

/-- `MappedKvStore`, a read-only view. -/
def mappedKvStore (src : ReadableKvStore σ K T) (forward : T → Option U) : ReadableKvStore σ K U :=
  valueView src forward

/-- The reads of `IMappedKvStore`. -/
def imappedKvStore (src : ReadableKvStore σ K T) (forward : T → Option U) : ReadableKvStore σ K U :=
  valueView src forward

/-- Where `forward` has an image for every value, the reads are those of `imapStore`. -/
theorem imapStore_readable (s : KvStore σ K T) (forward : T → U) (inverse : U → T) :
    (imapStore s forward inverse).readable = imappedKvStore s.readable fun v => some (forward v) := by
  have hget : ∀ key, Option.map forward <$> s.get key =
      (do match ← s.get key with
        | none => return none
        | some value => return some (forward value) : M σ (Option U)) := by
    intro key
    rw [map_eq_pure_bind]
    refine bind_congr fun v => ?_
    cases v <;> rfl
  have hrows : (fun e : K × Option T => (e.1, e.2.map forward)) =
      fun e => (e.1, e.2.bind fun v => some (forward v)) := by
    funext e
    rw [Option.map_eq_bind]
    rfl
  unfold KvStore.readable imapStore imappedKvStore valueView
  congr 1
  · funext key
    exact hget key
  · funext query
    rw [hrows]

variable {src : ReadableKvStore σ K T} {forward : T → Option U} {s : σ} {content : K → Option T}

theorem valueView_get (h : src.Answers s content) (k : K) :
    ((valueView src forward).get k s).1 = .ok ((content k).bind forward) := by
  show ((src.get k >>= fun v => _) s).1 = _
  rw [bind_ok (Prod.ext (h.get k) rfl)]
  cases content k <;> rfl

theorem valueView_batchGet (h : src.Answers s content) (ks : List K) :
    ∃ d, ((valueView src forward).batchGet ks s).1 = .ok d ∧
      ∀ k, d.get? k = if k ∈ ks then (content k).bind forward else none := by
  cases ks with
  | nil => exact ⟨Dict.empty, rfl, fun k => by simp⟩
  | cons j js =>
    obtain ⟨d, hd, hget⟩ := h.batchGet (Dict.unique (j :: js))
    refine ⟨d.collect fun _ v => forward v, ?_, fun k => ?_⟩
    · show ((src.batchGet (Dict.unique (j :: js)) >>= fun d => _) s).1 = _
      rw [bind_ok (Prod.ext hd rfl)]
      rfl
    · rw [Dict.get?_collect, hget]
      simp only [Dict.mem_unique]
      split <;> rfl

/-- Where every stored value has an image, the view's reads agree as the source's do. -/
theorem valueView_answers (h : src.Answers s content)
    (htotal : ∀ k v, content k = some v → (forward v).isSome = true) :
    (valueView src forward).Answers s fun k => (content k).bind forward := by
  have hsome : ∀ k, ((content k).bind forward).isSome = (content k).isSome := by
    intro k
    cases hk : content k with
    | none => rfl
    | some v => exact htotal k v hk
  refine ⟨valueView_get h, valueView_batchGet h, fun k => ?_, fun ks => ?_, fun k => ?_, h.batchStat,
    fun query hq => ?_⟩
  · rw [hsome]
    exact h.existsKey k
  · obtain ⟨held, hheld, hmem⟩ := h.batchExists ks
    exact ⟨held, hheld, fun k => by rw [hsome]; exact hmem k⟩
  · rw [hsome]
    exact h.stat k
  · obtain ⟨rows, hrows, hkeys, hvalues⟩ := h.scan { query with includeValues := true } hq
    refine ⟨rows.map fun e => (e.1, e.2.bind forward), ?_, fun k => ?_, fun _ e he => ?_⟩
    · show ((List.map _ <$> src.scanEntries { query with includeValues := true }) s).1 = _
      rw [map_apply, hrows]
      rfl
    · rw [hsome, ← hkeys, List.map_map]
      rfl
    · obtain ⟨e', he', rfl⟩ := List.mem_map.mp he
      show e'.2.bind forward = (content e'.1).bind forward
      rw [hvalues rfl e' he']

/-- A value with no image makes a key that exists and reads as nothing. -/
theorem total_of_consistent (h : src.Answers s content) (hview : (valueView src forward).Consistent s)
    {k : K} {v : T} (hk : content k = some v) : (forward v).isSome = true := by
  obtain ⟨seen, hseen⟩ := hview
  have hget := (hseen.get k).symm.trans (valueView_get h k)
  have hexists := (hseen.existsKey k).symm.trans (h.existsKey k)
  rw [Except.ok.inj hget, hk] at hexists
  exact Except.ok.inj hexists

/-- Over a source whose reads agree, a value view's reads agree exactly where `forward` has
    an image for every value the source holds. -/
theorem view_consistent_iff (src : ReadableKvStore σ K T) (forward : T → Option U) (s : σ)
    (content : K → Option T) (h : src.Answers s content) :
    ((mappedKvStore src forward).Consistent s ↔ ∀ k v, content k = some v → (forward v).isSome = true) ∧
    ((imappedKvStore src forward).Consistent s ↔ ∀ k v, content k = some v → (forward v).isSome = true) := by
  have hview : (valueView src forward).Consistent s ↔
      ∀ k v, content k = some v → (forward v).isSome = true :=
    ⟨fun hc k v hk => total_of_consistent h hc hk, fun htotal => ⟨_, valueView_answers h htotal⟩⟩
  exact ⟨hview, hview⟩

end Views

/-! ## Over a memory store -/

/-- A store that holds `"x"` under `a`. -/
def oneHeld : MemoryRoot Char String := (MemoryRoot.empty 0).put "items:v1" ['a'] "x" none 0

/-- Nothing but what is not empty. -/
def nonEmpty (text : String) : Option String := if text = "" then none else some text

theorem view_consistent_iff_oneHeld :
    ((mappedKvStore (MemoryKvBackend.plain String).store.readable nonEmpty).Consistent oneHeld ↔
      ∀ k v, MemoryKvBackend.shown oneHeld k = some v → (nonEmpty v).isSome = true) ∧
    ((imappedKvStore (MemoryKvBackend.plain String).store.readable nonEmpty).Consistent oneHeld ↔
      ∀ k v, MemoryKvBackend.shown oneHeld k = some v → (nonEmpty v).isSome = true) :=
  view_consistent_iff _ nonEmpty oneHeld _ (MemoryKvBackend.plain_answers oneHeld)

/-- A view that has no image for `"x"`: `a` exists, and `get` finds nothing. -/
theorem empty_view_disagrees :
    let view := mappedKvStore (MemoryKvBackend.plain String).store.readable
      fun _ => (none : Option String)
    (view.existsKey ['a'] oneHeld).1 = .ok true ∧ (view.get ['a'] oneHeld).1 = .ok none ∧
      ¬ view.Consistent oneHeld := by
  intro view
  refine ⟨rfl, rfl, fun h => ?_⟩
  have hnone := total_of_consistent (MemoryKvBackend.plain_answers oneHeld) h
    (k := ['a']) (v := "x") rfl
  cases hnone

end Kvtsjl
