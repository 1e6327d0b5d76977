import Kvtsjl.NoLostUpdate
import Kvtsjl.Views

/-
  What the reads of a store answer.
  `ReadableKvStore` is the reading half of a store. It `Answers` from a content where a
  point read, a batch and a listing all tell the same of each key. A memory store of its
  own does, whatever it holds: an expired entry is no entry to any of them.
-/

namespace Kvtsjl

open Assoc (Dict)
open Effects Prog

/-- `ReadableKvStore`: the operations that only read. -/
structure ReadableKvStore (σ K V : Type) where
  get : K → M σ (Option V)
  batchGet : List K → M σ (Dict K V)
  existsKey : K → M σ Bool
  batchExists : List K → M σ (Finset K)
  stat : K → M σ (Option RecordStat)
  batchStat : List K → M σ (Dict K RecordStat)
  scanEntries : ScanQuery K → M σ (List (K × Option V))

def KvStore.readable {σ K V : Type} (s : KvStore σ K V) : ReadableKvStore σ K V where
  get := s.get
  batchGet := s.batchGet
  existsKey := s.existsKey
  batchExists := s.batchExists
  stat := s.stat
  batchStat := s.batchStat
  scanEntries := s.scanEntries

namespace ReadableKvStore

variable {σ K V : Type} [DecidableEq K]

/-- From `s`, every read answers from the one content. A listing is of the keys, each with
    its value where values are asked for. -/
structure Answers (r : ReadableKvStore σ K V) (s : σ) (content : K → Option V) : Prop where
  get : ∀ k, (r.get k s).1 = .ok (content k)
  batchGet : ∀ ks, ∃ d, (r.batchGet ks s).1 = .ok d ∧
    ∀ k, d.get? k = if k ∈ ks then content k else none
  existsKey : ∀ k, (r.existsKey k s).1 = .ok (content k).isSome
  batchExists : ∀ ks, ∃ held, (r.batchExists ks s).1 = .ok held ∧
    ∀ k, k ∈ held ↔ k ∈ ks ∧ (content k).isSome = true
  stat : ∀ k, ∃ m, (r.stat k s).1 = .ok m ∧ m.isSome = (content k).isSome
  batchStat : ∀ ks, ∃ d, (r.batchStat ks s).1 = .ok d ∧
    ∀ k, if k ∈ ks then (r.stat k s).1 = .ok (d.get? k) else d.get? k = none
  scan : ∀ query, query.keyPrefix = none → ∃ rows, (r.scanEntries query s).1 = .ok rows ∧
    (∀ k, k ∈ rows.map Prod.fst ↔ (content k).isSome = true) ∧
    (query.includeValues = true → ∀ e ∈ rows, e.2 = content e.1)

/-- The reads agree with each other. -/
def Consistent (r : ReadableKvStore σ K V) (s : σ) : Prop := ∃ content, r.Answers s content

end ReadableKvStore

/-! ## A loop of reads that answer the same throughout -/

section Loops

variable {σ K β γ : Type}

/-- A loop of steps that add the answer to one question each. `Same` is what leaves every
    answer as it is. -/
theorem foldlM_answers {Same : σ → σ → Prop} [Std.Refl Same] [IsTrans σ Same] {ask : K → M σ β}
    {answer : K → β} {add : γ → K → β → γ} {f : γ → K → M σ γ} {s : σ}
    (hf : ∀ out k, f out k = ask k >>= fun b => pure (add out k b))
    (h : ∀ k t, Same s t → (ask k t).1 = .ok (answer k) ∧ Same t (ask k t).2) (ks : List K) :
    ∀ (out : γ) (t : σ), Same s t → ∃ t',
      ks.foldlM f out t = (.ok (ks.foldl (fun out k => add out k (answer k)) out), t') ∧ Same s t' := by
  induction ks with
  | nil =>
    intro out t ht
    exact ⟨t, rfl, ht⟩
  | cons k ks ih =>
    intro out t ht
    obtain ⟨hok, hsame⟩ := h k t ht
    obtain ⟨t', hrun, ht'⟩ := ih (add out k (answer k)) (ask k t).2 (IsTrans.trans _ _ _ ht hsame)
    refine ⟨t', ?_, ht'⟩
    rw [List.foldlM_cons, hf, bind_assoc, bind_ok (Prod.ext hok rfl), pure_bind]
    exact hrun

variable [DecidableEq K]

theorem get?_foldl_some {β : Type} (answer : K → Option β) (ks : List K) :
    ∀ (out : Dict K β) (k : K),
      (ks.foldl (fun out k => match answer k with
        | some b => out.set k b
        | none => out) out).get? k = if k ∈ ks then answer k <|> out.get? k else out.get? k := by
  induction ks with
  | nil => exact fun out k => rfl
  | cons j ks ih =>
    intro out k
    rw [List.foldl_cons, ih]
    by_cases hj : k = j
    · subst hj
      rw [if_pos List.mem_cons_self]
      cases hk : answer k <;> simp [Dict.get?_set]
    · have hmem : k ∈ j :: ks ↔ k ∈ ks := by simp [hj]
      have hother : (match answer j with
          | some b => out.set j b
          | none => out).get? k = out.get? k := by
        cases answer j with
        | none => rfl
        | some b => rw [Dict.get?_set, if_neg hj]
      rw [hother]
      by_cases hin : k ∈ ks <;> simp [hin, hj]

theorem mem_foldl_insert (answer : K → Bool) (ks : List K) :
    ∀ (out : Finset K) (k : K),
      k ∈ ks.foldl (fun out k => if answer k then insert k out else out) out ↔
        k ∈ out ∨ k ∈ ks ∧ answer k = true := by
  induction ks with
  | nil =>
    intro out k
    simp
  | cons j ks ih =>
    intro out k
    rw [List.foldl_cons, ih]
    cases hj : answer j with
    | false =>
      by_cases hkj : k = j
      · subst hkj
        simp [hj]
      · simp [hkj]
    | true =>
      by_cases hkj : k = j
      · subst hkj
        simp [hj]
      · simp [hkj]

variable {Same : σ → σ → Prop} [Std.Refl Same] [IsTrans σ Same] {s : σ}

/-- A batch of reads from any state that answers as `s` does. -/
theorem batchGet_run {get : K → M σ (Option β)} {answer : K → Option β}
    (h : ∀ k t, Same s t → (get k t).1 = .ok (answer k) ∧ Same t (get k t).2) (ks : List K) {t : σ}
    (ht : Same s t) : ∃ d t', defaultBatchGet get ks t = (.ok d, t') ∧ Same s t' ∧
      ∀ k, d.get? k = if k ∈ ks then answer k else none := by
  have hstep : ∀ (out : Dict K β) (k : K),
      (do match ← get k with
        | some value => pure (out.set k value)
        | none => pure out : M σ (Dict K β)) =
      get k >>= fun b => pure (match b with
        | some b => out.set k b
        | none => out) := by
    intro out k
    refine bind_congr fun b => ?_
    cases b <;> rfl
  obtain ⟨t', hrun, ht'⟩ := foldlM_answers hstep h ks Dict.empty t ht
  refine ⟨_, t', hrun, ht', fun k => ?_⟩
  rw [get?_foldl_some]
  simp

theorem batchGet_answers {get : K → M σ (Option β)} {answer : K → Option β}
    (h : ∀ k t, Same s t → (get k t).1 = .ok (answer k) ∧ Same t (get k t).2) (ks : List K) :
    ∃ d, (defaultBatchGet get ks s).1 = .ok d ∧ ∀ k, d.get? k = if k ∈ ks then answer k else none := by
  obtain ⟨d, t', hrun, -, hget?⟩ := batchGet_run h ks (Std.Refl.refl s)
  exact ⟨d, congrArg Prod.fst hrun, hget?⟩

theorem batchExists_answers {ask : K → M σ Bool} {answer : K → Bool}
    (h : ∀ k t, Same s t → (ask k t).1 = .ok (answer k) ∧ Same t (ask k t).2) (ks : List K) :
    ∃ held, (ks.foldlM (fun out key => do
        if ← ask key then pure (insert key out) else pure out : Finset K → K → M σ (Finset K)) ∅ s).1 =
      .ok held ∧ ∀ k, k ∈ held ↔ k ∈ ks ∧ answer k = true := by
  have hstep : ∀ (out : Finset K) (k : K),
      (do if ← ask k then pure (insert k out) else pure out : M σ (Finset K)) =
      ask k >>= fun b => pure (if b then insert k out else out) := by
    intro out k
    refine bind_congr fun b => ?_
    cases b <;> rfl
  obtain ⟨t', hrun, -⟩ := foldlM_answers hstep h ks ∅ s (Std.Refl.refl s)
  refine ⟨_, congrArg Prod.fst hrun, fun k => ?_⟩
  rw [mem_foldl_insert]
  simp

end Loops

/-! ## A memory store of its own -/

namespace MemoryKvBackend

variable {V : Type}

/-- The entry a read finds: one that has not expired. -/
def found (r : MemoryRoot Char V) (k : List Char) : Option (Entry V) :=
  ((plain V).entryAt r k).filter fun e => !expired e r.clock

/-- What a read shows of a key. -/
def shown (r : MemoryRoot Char V) (k : List Char) : Option V :=
  (found r k).map fun e => e.valueBlob

/-- The clock and what reads find are as they were. -/
def SameFound (r r' : MemoryRoot Char V) : Prop := r'.clock = r.clock ∧ ∀ k, found r' k = found r k

instance : Std.Refl (@SameFound V) := ⟨fun _ => ⟨rfl, fun _ => rfl⟩⟩

instance : IsTrans _ (@SameFound V) :=
  ⟨fun _ _ _ h h' => ⟨h'.1.trans h.1, fun k => (h'.2 k).trans (h.2 k)⟩⟩

/-- An expired entry that goes is not missed. -/
theorem sameFound_pop {r : MemoryRoot Char V} {p : List Char} {e : Entry V}
    (h : (plain V).entryAt r p = some e) (hx : expired e r.clock = true) :
    SameFound r (r.pop (plain V).collection p) := by
  refine ⟨rfl, fun k => ?_⟩
  unfold found entryAt
  rw [MemoryRoot.get?_pop, MemoryRoot.clock_pop]
  split
  · next hk =>
    subst hk
    have he : (r.bucket (plain V).collection).get? k = some e := h
    rw [he, Option.filter_some, hx]
    rfl
  · rfl

theorem sameFound_lazyDelete {r : MemoryRoot Char V} {p : List Char} {e : Entry V}
    (h : (plain V).entryAt r p = some e) (hx : expired e r.clock = true) :
    SameFound r ((plain V).lazyDelete p r).2 := sameFound_pop h hx

theorem liveEntry_found (k : List Char) (r : MemoryRoot Char V) :
    ((plain V).liveEntry k r).1 = .ok (found r k) ∧ SameFound r ((plain V).liveEntry k r).2 := by
  unfold liveEntry found
  rw [(plain V).physicalKey_ok (p := k) rfl, pure_bind, bind_apply, read_apply]
  simp only
  cases h : (plain V).entryAt r k with
  | none => exact ⟨rfl, Std.Refl.refl (r := SameFound) r⟩
  | some e =>
    simp only
    cases hx : expired e r.clock with
    | true =>
      rw [if_pos rfl, Option.filter_some, hx]
      exact ⟨rfl, sameFound_lazyDelete h hx⟩
    | false =>
      rw [if_neg Bool.false_ne_true, Option.filter_some, hx]
      exact ⟨rfl, Std.Refl.refl (r := SameFound) r⟩

theorem get_shown (k : List Char) (r : MemoryRoot Char V) :
    ((plain V).get k r).1 = .ok (shown r k) ∧ SameFound r ((plain V).get k r).2 := by
  obtain ⟨hok, hsame⟩ := liveEntry_found k r
  unfold get shown
  rw [bind_ok (Prod.ext hok rfl)]
  cases found r k with
  | none => exact ⟨rfl, hsame⟩
  | some e => exact ⟨rfl, hsame⟩

theorem shown_eq {r t : MemoryRoot Char V} (h : SameFound r t) (k : List Char) : shown t k = shown r k := by
  unfold shown
  rw [h.2 k]

/-- A read in any state that shows what `r` does. -/
theorem get_shown_of_same {r t : MemoryRoot Char V} (h : SameFound r t) (k : List Char) :
    ((plain V).get k t).1 = .ok (shown r k) ∧ SameFound t ((plain V).get k t).2 := by
  rw [← shown_eq h k]
  exact get_shown k t

theorem stat_shown (k : List Char) (r : MemoryRoot Char V) :
    ((plain V).stat k r).1 = .ok ((found r k).map statOf) ∧ SameFound r ((plain V).stat k r).2 := by
  obtain ⟨hok, hsame⟩ := liveEntry_found k r
  unfold stat
  rw [bind_ok (Prod.ext hok rfl)]
  exact ⟨rfl, hsame⟩

theorem existsKey_shown (k : List Char) (r : MemoryRoot Char V) :
    ((plain V).existsKey k r).1 = .ok (shown r k).isSome ∧ SameFound r ((plain V).existsKey k r).2 := by
  obtain ⟨hok, hsame⟩ := liveEntry_found k r
  unfold existsKey shown
  rw [bind_ok (Prod.ext hok rfl)]
  exact ⟨by rw [Option.isSome_map]; rfl, hsame⟩

/-- An entry of the plain store, as a scan lists it. -/
def row (r : MemoryRoot Char V) (query : ScanQuery (List Char)) (k : List Char) :
    Option (List Char × Option V) :=
  (found r k).map fun e => (k, if query.includeValues then some e.valueBlob else none)

theorem scanOne_row {query : ScanQuery (List Char)} (hq : query.keyPrefix = none) (k : List Char)
    (r : MemoryRoot Char V) :
    ((plain V).scanOne query k r).1 = .ok (row r query k) ∧
      SameFound r ((plain V).scanOne query k r).2 := by
  have hprefix : (plain V).scanPrefixBlob query.keyPrefix <+: k := by
    rw [hq]
    exact List.nil_prefix
  unfold scanOne row found
  rw [bind_apply, read_apply]
  simp only
  cases h : (plain V).entryAt r k with
  | none => exact ⟨rfl, Std.Refl.refl (r := SameFound) r⟩
  | some e =>
    simp only
    cases hx : expired e r.clock with
    | true =>
      rw [if_pos rfl, Option.filter_some, hx]
      exact ⟨rfl, sameFound_lazyDelete h hx⟩
    | false =>
      have hdecode : (plain V).decodeKeyFromPhysical k = some k := rfl
      rw [if_neg Bool.false_ne_true, if_neg (not_not.mpr hprefix), Option.filter_some, hx, hdecode]
      cases hv : query.includeValues <;> exact ⟨rfl, Std.Refl.refl (r := SameFound) r⟩

theorem mapM_scanOne {query : ScanQuery (List Char)} (hq : query.keyPrefix = none)
    (ks : List (List Char)) : ∀ (r t : MemoryRoot Char V), SameFound r t →
      (ks.mapM ((plain V).scanOne query) t).1 = .ok (ks.map (row r query)) := by
  induction ks with
  | nil => exact fun r t _ => rfl
  | cons k ks ih =>
    intro r t ht
    obtain ⟨hok, hsame⟩ := scanOne_row hq k t
    have hrow : row t query k = row r query k := by
      unfold row
      rw [ht.2 k]
    rw [List.mapM_cons, bind_ok (Prod.ext hok rfl)]
    have hrest := ih r _ (IsTrans.trans _ _ _ ht hsame)
    rw [bind_ok (Prod.ext hrest rfl), hrow]
    rfl

theorem scanEntries_rows {query : ScanQuery (List Char)} (hq : query.keyPrefix = none)
    (r : MemoryRoot Char V) : ((plain V).scanEntries query r).1 =
      .ok ((r.bucket (plain V).collection).keys.filterMap (row r query)) := by
  have hrows := mapM_scanOne hq (r.bucket (plain V).collection).keys r r (Std.Refl.refl r)
  unfold scanEntries
  rw [bind_apply, read_apply]
  simp only
  rw [bind_ok (Prod.ext hrows rfl)]
  show (Except.ok _ : Except Exn _) = _
  rw [List.filterMap_map]
  rfl

/-- The reads of a memory store of its own agree, whatever it holds. -/
theorem plain_answers (r : MemoryRoot Char V) :
    ((plain V).store.readable).Answers r (shown r) := by
  have hfound : ∀ {t}, SameFound r t → ∀ k, found t k = found r k := fun ht => ht.2
  have hshown : ∀ {t}, SameFound r t → ∀ k, shown t k = shown r k := by
    intro t ht k
    unfold shown
    rw [hfound ht k]
  have hget : ∀ k t, SameFound r t →
      ((plain V).get k t).1 = .ok (shown r k) ∧ SameFound t ((plain V).get k t).2 := by
    intro k t ht
    rw [← hshown ht k]
    exact get_shown k t
  have hexists : ∀ k t, SameFound r t → ((plain V).existsKey k t).1 = .ok (shown r k).isSome ∧
      SameFound t ((plain V).existsKey k t).2 := by
    intro k t ht
    rw [← hshown ht k]
    exact existsKey_shown k t
  have hstat : ∀ k t, SameFound r t → ((plain V).stat k t).1 = .ok ((found r k).map statOf) ∧
      SameFound t ((plain V).stat k t).2 := by
    intro k t ht
    rw [← hfound ht k]
    exact stat_shown k t
  refine ⟨fun k => (get_shown k r).1, batchGet_answers hget, fun k => (existsKey_shown k r).1,
    batchExists_answers hexists, fun k => ⟨_, (stat_shown k r).1, ?_⟩, fun ks => ?_, fun query hq => ?_⟩
  · unfold shown
    rw [Option.isSome_map, Option.isSome_map]
  · obtain ⟨d, hd, hget?⟩ := batchGet_answers hstat ks
    have hbatch : (plain V).batchStat ks = defaultBatchGet (plain V).stat ks := by
      unfold batchStat defaultBatchGet
      congr 1
      funext out key
      refine bind_congr fun m => ?_
      cases m <;> rfl
    refine ⟨d, (congrArg (fun m => (m r).1) hbatch).trans hd, fun k => ?_⟩
    by_cases hk : k ∈ ks
    · rw [if_pos hk, hget? k, if_pos hk]
      exact (stat_shown k r).1
    · rw [if_neg hk, hget? k, if_neg hk]
  · refine ⟨_, scanEntries_rows hq r, fun k => ⟨fun hk => ?_, fun hk => ?_⟩, fun hv e he => ?_⟩
    · obtain ⟨e, he, rfl⟩ := List.mem_map.mp hk
      obtain ⟨j, -, hj⟩ := List.mem_filterMap.mp he
      obtain ⟨x, hx, rfl⟩ := Option.map_eq_some_iff.mp hj
      show (shown r j).isSome = true
      unfold shown
      rw [hx]
      rfl
    · unfold shown at hk
      rw [Option.isSome_map] at hk
      obtain ⟨e, he⟩ := Option.isSome_iff_exists.mp hk
      have hentry : (r.bucket (plain V).collection).get? k = some e := (Option.filter_eq_some_iff.mp he).1
      have hrow : row r query k = some (k, if query.includeValues then some e.valueBlob else none) := by
        unfold row
        rw [he]
        rfl
      exact List.mem_map.mpr ⟨_, List.mem_filterMap.mpr ⟨k, Dict.mem_keys.mpr ⟨e, hentry⟩, hrow⟩, rfl⟩
    · obtain ⟨j, -, hj⟩ := List.mem_filterMap.mp he
      obtain ⟨x, hx, rfl⟩ := Option.map_eq_some_iff.mp hj
      show (if query.includeValues then some x.valueBlob else none) = shown r j
      unfold shown
      rw [hv, if_pos rfl, hx]
      rfl

end MemoryKvBackend

end Kvtsjl
