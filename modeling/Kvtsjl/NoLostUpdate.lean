import Kvtsjl.Concurrent
import Kvtsjl.Memory

/-
  The two maps that hand out versions of their own: `DictKeyMap` numbers its writes, and a
  memory store hands out the entry itself. Neither ever names two entries of a key alike,
  so no update of either is lost.
-/

namespace Kvtsjl

open Assoc (Dict)
open Effects Prog

/-! ## A batch made entry by entry -/

section Each

variable {σ K T E : Type} [DecidableEq K] {write : K → ConditionalWrite T → M σ Bool}
  {entry : σ → K → Option E} {Later : σ → σ → Prop} {P : ConditionalWrite T → Option E → Option E → Prop}

/-- One conditional write: whether it was made, what it did to its key, and that it
    touched no other. -/
structure WritesOne (write : K → ConditionalWrite T → M σ Bool) (entry : σ → K → Option E)
    (Later : σ → σ → Prop) (P : ConditionalWrite T → Option E → Option E → Prop) (k : K)
    (w : ConditionalWrite T) (s : σ) : Prop where
  later : Later s (write k w s).2
  others : ∀ j, j ≠ k → entry (write k w s).2 j = entry s j
  made : ∃ b, (write k w s).1 = .ok b ∧
    if b then P w (entry s k) (entry (write k w s).2 k)
    else entry (write k w s).2 k = entry s k

theorem foldl_writesOne [Std.Refl Later] [IsTrans σ Later]
    (h : ∀ k w s, WritesOne write entry Later P k w s) (es : List (K × ConditionalWrite T))
    (hn : (es.map Prod.fst).Nodup) (done : Finset K) (hd : ∀ k ∈ es.map Prod.fst, k ∉ done)
    (s : σ) :
    let r := es.foldlM (addWritten write) done s
    ∃ written, r.1 = .ok written ∧ Later s r.2 ∧ done ⊆ written ∧
      ∀ k, if k ∈ written ∧ k ∉ done then
          ∃ w, (k, w) ∈ es ∧ P w (entry s k) (entry r.2 k)
        else entry r.2 k = entry s k := by
  induction es generalizing done s with
  | nil =>
    exact ⟨done, rfl, Std.Refl.refl _, Finset.Subset.refl _, fun k => by
      rw [if_neg (fun hk => hk.2 hk.1)]
      rfl⟩
  | cons e es ih =>
    obtain ⟨k, w⟩ := e
    rw [List.map_cons, List.nodup_cons] at hn
    obtain ⟨hlater, hothers, b, hb, hmade⟩ := h k w s
    have hk : k ∉ done := hd k (by simp)
    have hstep : addWritten write done (k, w) s =
        (.ok (if b then insert k done else done), (write k w s).2) := by
      unfold addWritten
      exact bind_ok (Prod.ext hb rfl)
    intro r
    have hr : r = es.foldlM (addWritten write) (if b then insert k done else done) (write k w s).2 := by
      show (List.foldlM _ _ _ : M σ (Finset K)) s = _
      rw [List.foldlM_cons, bind_ok hstep]
    have hd' : ∀ j ∈ es.map Prod.fst, j ∉ if b then insert k done else done := by
      intro j hj
      have hjk : j ≠ k := fun he => hn.1 (he ▸ hj)
      have hjd : j ∉ done := hd j (List.mem_cons_of_mem _ hj)
      split <;> simp [hjk, hjd]
    obtain ⟨written, hw, hlater', hsub, hspec⟩ := ih hn.2 _ hd' (write k w s).2
    rw [hr]
    refine ⟨written, hw, IsTrans.trans _ _ _ hlater hlater', ?_, fun j => ?_⟩
    · refine Finset.Subset.trans ?_ hsub
      split
      · exact Finset.subset_insert _ _
      · exact Finset.Subset.refl _
    · have hj := hspec j
      by_cases hjk : j = k
      · subst hjk
        cases b with
        | true =>
          have hin : j ∈ written := hsub (by simp)
          rw [if_neg (by simp)] at hj
          rw [if_pos ⟨hin, hk⟩, hj]
          exact ⟨w, by simp, by simpa using hmade⟩
        | false =>
          have hnot : ¬ (j ∈ written ∧ j ∉ done) := by
            intro hin
            rw [if_pos (by simpa using hin)] at hj
            obtain ⟨w', hw', -⟩ := hj
            exact hn.1 (List.mem_map.mpr ⟨_, hw', rfl⟩)
          rw [if_neg (by simpa using hnot)] at hj
          rw [if_neg hnot, hj]
          simpa using hmade
      · have hiff : (j ∈ written ∧ j ∉ if b then insert k done else done) ↔
            j ∈ written ∧ j ∉ done := by
          split <;> simp [hjk]
        rw [hothers j hjk] at hj
        by_cases hin : j ∈ written ∧ j ∉ done
        · rw [if_pos (hiff.mpr hin)] at hj
          rw [if_pos hin]
          obtain ⟨w', hw', hp⟩ := hj
          exact ⟨w', List.mem_cons_of_mem _ hw', hp⟩
        · rw [if_neg fun hx => hin (hiff.mp hx)] at hj
          rw [if_neg hin, hj]

/-- A batch of conditional writes does to each key what its own write does. -/
theorem eachConditional_spec [Std.Refl Later] [IsTrans σ Later]
    (h : ∀ k w s, WritesOne write entry Later P k w s) (ws : Dict K (ConditionalWrite T)) (s : σ) :
    ∃ written, (eachConditional write ws s).1 = .ok written ∧
      Later s (eachConditional write ws s).2 ∧
      ∀ k, if k ∈ written then ∃ w, ws.get? k = some w ∧
          P w (entry s k) (entry (eachConditional write ws s).2 k)
        else entry (eachConditional write ws s).2 k = entry s k := by
  obtain ⟨written, hw, hlater, -, hspec⟩ := foldl_writesOne h ws.entries ws.nodup ∅ (by simp) s
  refine ⟨written, hw, hlater, fun k => ?_⟩
  have hk := hspec k
  by_cases hin : k ∈ written
  · rw [if_pos ⟨hin, by simp⟩] at hk
    rw [if_pos hin]
    obtain ⟨w, hwm, hp⟩ := hk
    exact ⟨w, Dict.mem_entries.mp hwm, hp⟩
  · rw [if_neg fun hx => hin hx.1] at hk
    rw [if_neg hin]
    exact hk

end Each

/-! ## Numbered writes -/

section Dict

variable {K T : Type} [DecidableEq K]

/-- No number is given out twice, and an entry with an old number is an old entry. -/
def DictLater (s s' : DictState K T) : Prop :=
  s.next ≤ s'.next ∧ ∀ k e, s'.entry k = some e → e.2 < s.next → s.entry k = some e

instance : Std.Refl (@DictLater K T _) := ⟨fun _ => ⟨Nat.le_refl _, fun _ _ h _ => h⟩⟩

instance : IsTrans (DictState K T) DictLater := ⟨fun _ _ _ h h' =>
  ⟨Nat.le_trans h.1 h'.1, fun k e he hlt =>
    h.2 k e (h'.2 k e he (Nat.lt_of_lt_of_le hlt h.1)) hlt⟩⟩

namespace DictState

theorem entry_fresh {s : DictState K T} {k : K} {e : T × Nat} (h : s.entry k = some e) :
    e.2 < s.next := by
  obtain ⟨v, -, hv⟩ := Option.bind_eq_some_iff.mp h
  obtain ⟨n, hn, rfl⟩ := Option.map_eq_some_iff.mp hv
  exact s.fresh k n hn

theorem map_entry (s : DictState K T) (k : K) :
    (s.entry k).map (fun e => Token.number e.2) = (s.version.get? k).map Token.number := by
  have ha := s.agree k
  unfold entry
  cases hd : s.data.get? k with
  | none =>
    rw [hd] at ha
    cases hv : s.version.get? k with
    | none => rfl
    | some n => rw [hv] at ha; cases ha
  | some v => cases s.version.get? k <;> rfl

/-- What a key holds is the value of its entry. -/
theorem get?_data (s : DictState K T) (k : K) :
    s.data.get? k = (s.entry k).bind fun e => some e.1 := by
  have ha := s.agree k
  unfold entry
  cases hd : s.data.get? k with
  | none => rfl
  | some v =>
    rw [hd] at ha
    cases hv : s.version.get? k with
    | none => rw [hv] at ha; cases ha
    | some n => rfl

theorem entry_set (s : DictState K T) (k j : K) (v : T) :
    (s.set k v).entry j = if j = k then some (v, s.next) else s.entry j := by
  unfold entry set
  simp only [Dict.get?_set]
  split <;> rfl

theorem entry_erase (s : DictState K T) (k j : K) :
    (s.erase k).entry j = if j = k then none else s.entry j := by
  unfold entry erase
  simp only [Dict.get?_erase]
  split <;> rfl

theorem later_set (s : DictState K T) (k : K) (v : T) : DictLater s (s.set k v) := by
  refine ⟨Nat.le_succ _, fun j e he hlt => ?_⟩
  rw [entry_set] at he
  split at he
  · cases he; exact absurd hlt (Nat.lt_irrefl _)
  · exact he

theorem later_erase (s : DictState K T) (k : K) : DictLater s (s.erase k) := by
  refine ⟨Nat.le_refl _, fun j e he _ => ?_⟩
  rw [entry_erase] at he
  split at he
  · cases he
  · exact he

end DictState

namespace DictKeyMap

theorem delete_apply (k : K) (s : DictState K T) :
    delete k s = (.ok (s.data.get? k).isSome, if (s.data.get? k).isSome then s.erase k else s) := by
  unfold delete
  rw [bind_apply, read_apply]
  cases h : (s.data.get? k).isSome <;> rfl

theorem later_delete (k : K) : Moves DictLater (delete k : M (DictState K T) Bool) := by
  intro s
  rw [delete_apply]
  split
  · exact s.later_erase k
  · exact Std.Refl.refl _

/-- A compare and write of a numbered entry. -/
theorem writesOne (k : K) (w : ConditionalWrite T) (s : DictState K T) :
    WritesOne writeIfUnchanged DictState.entry DictLater
      (fun w before after => w.seen.version = before.map (fun e => Token.number e.2) ∧
        Stored (fun e : T × Nat => some e.1) w.change after) k w s := by
  by_cases hv : (s.version.get? k).map Token.number = w.seen.version
  · have hver : w.seen.version = (s.entry k).map (fun e => Token.number e.2) := by
      rw [DictState.map_entry, hv]
    cases hc : w.change with
    | put value =>
      have hset : writeIfUnchanged k w s = (.ok true, s.set k value) := by
        unfold writeIfUnchanged
        rw [bind_apply, read_apply]
        dsimp only
        rw [if_neg (not_not.mpr hv), hc]
        rfl
      refine ⟨?_, fun j hj => ?_, true, ?_, ?_⟩ <;> rw [hset]
      · exact s.later_set k value
      · rw [DictState.entry_set, if_neg hj]
      · rw [if_pos rfl, DictState.entry_set, if_pos rfl, hc]
        exact ⟨hver, _, rfl, rfl⟩
    | remove =>
      have hdel : writeIfUnchanged k w s = delete k s := by
        unfold writeIfUnchanged
        rw [bind_apply, read_apply]
        dsimp only
        rw [if_neg (not_not.mpr hv), hc]
      rw [delete_apply] at hdel
      cases hd : s.data.get? k with
      | none =>
        rw [hd] at hdel
        refine ⟨?_, fun j _ => ?_, false, ?_, ?_⟩ <;> rw [hdel] <;> try rfl
        exact Std.Refl.refl _
      | some x =>
        rw [hd] at hdel
        refine ⟨?_, fun j hj => ?_, true, ?_, ?_⟩ <;> rw [hdel]
        · exact s.later_erase k
        · simp only [Option.isSome_some, if_true]
          rw [DictState.entry_erase, if_neg hj]
        · rfl
        · simp only [Option.isSome_some, if_true]
          rw [DictState.entry_erase, if_pos rfl, hc]
          exact ⟨hver, rfl⟩
  · have hrun : writeIfUnchanged k w s = (.ok false, s) := by
      unfold writeIfUnchanged
      rw [bind_apply, read_apply]
      dsimp only
      rw [if_pos hv]
      rfl
    refine ⟨?_, fun j _ => ?_, false, ?_, ?_⟩ <;> rw [hrun] <;> try rfl
    exact Std.Refl.refl _

end DictKeyMap

end Dict

/-- `DictKeyMap` names each write by its number. -/
def dictVersioning (K T : Type) [DecidableEq K] : Versioning (dictKeyMap K T) where
  E := T × Nat
  entry := DictState.entry
  version e := .number e.2
  value e := some e.1
  live _ e := some e.1
  Later := DictLater
  later_refl := Std.Refl.refl
  later_trans := IsTrans.trans
  shows _ _ _ h := h
  names s s' k e e' hs he he' hv := by
    have hlt : e'.2 < s.next := by
      have hn : e.2 = e'.2 := Token.number.inj hv
      rw [← hn]
      exact DictState.entry_fresh he
    exact Option.some.inj (he.symm.trans (hs.2 k e' he' hlt))
  read ks s := by
    refine ⟨Std.Refl.refl _, fun _ => rfl, fun seen hseen k hk => ?_⟩
    cases hseen
    rw [Dict.get?_ofKeys, if_pos hk, DictState.map_entry, DictState.get?_data]
    cases hv : s.version.get? k with
    | none =>
      have hentry : s.entry k = none := by
        unfold DictState.entry
        rw [hv]
        cases s.data.get? k <;> rfl
      rw [hentry]
      rfl
    | some n => rfl
  write ws ttl s := by
    obtain ⟨written, hw, hlater, hspec⟩ := eachConditional_spec DictKeyMap.writesOne ws s
    refine ⟨hlater, ?_⟩
    show match (eachConditional DictKeyMap.writeIfUnchanged ws s).1 with
      | .ok written => _
      | .error _ => _
    rw [hw]
    exact hspec
  found k s x hx := by
    cases hx
    exact DictState.get?_data s k
  get k s := ⟨Std.Refl.refl _, fun _ => .inl rfl⟩
  set k v _ s := s.later_set k v
  delete := DictKeyMap.later_delete

/-! ## Entries that are their own versions -/

namespace MemoryRoot

variable {α VB : Type} [DecidableEq α]

/-- In one bucket: no identity is given out twice, and an entry with an old identity is an
    old entry. -/
def Later (name : String) (r r' : MemoryRoot α VB) : Prop :=
  r.nextId ≤ r'.nextId ∧ ∀ p e, (r'.bucket name).get? p = some e → e.id < r.nextId →
    (r.bucket name).get? p = some e

instance (name : String) : Std.Refl (@Later α VB _ name) := ⟨fun _ => ⟨Nat.le_refl _, fun _ _ h _ => h⟩⟩

instance (name : String) : IsTrans (MemoryRoot α VB) (Later name) := ⟨fun _ _ _ h h' =>
  ⟨Nat.le_trans h.1 h'.1, fun p e he hlt =>
    h.2 p e (h'.2 p e he (Nat.lt_of_lt_of_le hlt h.1)) hlt⟩⟩

theorem later_put (r : MemoryRoot α VB) (name : String) (p : List α) (blob : VB)
    (expiresAt : Option Instant) (createdAt : Instant) :
    Later name r (r.put name p blob expiresAt createdAt) := by
  refine ⟨Nat.le_succ _, fun q e he hlt => ?_⟩
  rw [get?_put] at he
  split at he
  · cases he; exact absurd hlt (Nat.lt_irrefl _)
  · exact he

theorem later_pop (r : MemoryRoot α VB) (name : String) (p : List α) :
    Later name r (r.pop name p) := by
  refine ⟨Nat.le_refl _, fun q e he _ => ?_⟩
  rw [get?_pop] at he
  split at he
  · cases he
  · exact he

theorem later_advance (r : MemoryRoot α VB) (name : String) (d : Int) :
    Later name r (r.advance d) := ⟨Nat.le_refl _, fun _ _ h _ => h⟩

end MemoryRoot

/-- A program that leaves the state as it is. -/
def ReadOnly {σ β : Type} (m : M σ β) : Prop := ∀ s, (m s).2 = s

/-- A dictionary filled key by key by programs that only read. -/
theorem foldlM_set_readOnly {σ K β : Type} [DecidableEq K] {f : K → M σ β}
    (hf : ∀ k, ReadOnly (f k)) (ks : List K) (d : Dict K β) (s : σ) :
    let r := ks.foldlM (MemoryKvBackend.addRead f) d s
    r.2 = s ∧ ∀ d', r.1 = .ok d' → ∀ k, if k ∈ ks then ∃ x, (f k s).1 = .ok x ∧ d'.get? k = some x
      else d'.get? k = d.get? k := by
  induction ks generalizing d with
  | nil =>
    refine ⟨rfl, fun d' hd k => ?_⟩
    cases hd
    simp
  | cons k ks ih =>
    intro r
    rcases hk : f k s with ⟨e | x, s'⟩
    · have hs : s' = s := by
        have := hf k s
        rwa [hk] at this
      have hstep : MemoryKvBackend.addRead f d k s = (.error e, s) := by
        unfold MemoryKvBackend.addRead
        rw [bind_error hk, hs]
      have hr : r = (.error e, s) := by
        show (List.foldlM _ _ _ : M σ (Dict K β)) s = _
        rw [List.foldlM_cons, bind_error hstep]
      rw [hr]
      exact ⟨rfl, fun d' hd => by cases hd⟩
    · have hs : s' = s := by
        have := hf k s
        rwa [hk] at this
      rw [hs] at hk
      have hstep : MemoryKvBackend.addRead f d k s = (.ok (d.set k x), s) := by
        unfold MemoryKvBackend.addRead
        rw [bind_ok hk, pure_apply]
      have hr : r = ks.foldlM (MemoryKvBackend.addRead f) (d.set k x) s := by
        show (List.foldlM _ _ _ : M σ (Dict K β)) s = _
        rw [List.foldlM_cons, bind_ok hstep]
      rw [hr]
      refine ⟨(ih (d.set k x)).1, fun d' hd j => ?_⟩
      have hj := (ih (d.set k x)).2 d' hd j
      by_cases hmem : j ∈ ks
      · rw [if_pos hmem] at hj
        rw [if_pos (List.mem_cons_of_mem _ hmem)]
        exact hj
      · rw [if_neg hmem, Dict.get?_set] at hj
        by_cases hjk : j = k
        · subst hjk
          rw [if_pos rfl] at hj
          rw [if_pos (by simp)]
          exact ⟨x, by rw [hk], hj⟩
        · rw [if_neg hjk] at hj
          rw [if_neg (by simp [hmem, hjk])]
          exact hj

namespace MemoryKvBackend

variable {K V α VB : Type} [DecidableEq α] (b : MemoryKvBackend K V α VB)

/-- What the bucket holds for a key. -/
def entry (r : MemoryRoot α VB) (k : K) : Option (Entry VB) :=
  match b.physicalKeyBlob k with
  | .ok p => b.entryAt r p
  | .error _ => none

/-- What a read shows of an entry. -/
def live (r : MemoryRoot α VB) (e : Entry VB) : Option V :=
  if expired e r.clock then none else b.kvset.valueSerde.deserialize e.valueBlob

abbrev Later (r r' : MemoryRoot α VB) : Prop := MemoryRoot.Later b.collection r r'

theorem entry_eq {k : K} {p : List α} (h : b.physicalKeyBlob k = .ok p) (r : MemoryRoot α VB) :
    b.entry r k = b.entryAt r p := by
  unfold entry
  rw [h]

theorem physicalKey_ok {k : K} {p : List α} (h : b.physicalKeyBlob k = .ok p) :
    b.physicalKey k = pure p := by
  unfold physicalKey
  rw [h]

theorem physicalKey_error {k : K} {e : Exn} (h : b.physicalKeyBlob k = .error e) :
    b.physicalKey k = raise e := by
  unfold physicalKey
  rw [h]

/-- Another key is another place in the bucket. -/
theorem entry_put {k : K} {p : List α} (h : b.physicalKeyBlob k = .ok p) (r : MemoryRoot α VB)
    (blob : VB) (expiresAt : Option Instant) (createdAt : Instant) (j : K) :
    (j = k → b.entry (r.put b.collection p blob expiresAt createdAt) j =
      some ⟨r.nextId, blob, expiresAt, createdAt, r.clock⟩) ∧
    (j ≠ k → b.entry (r.put b.collection p blob expiresAt createdAt) j = b.entry r j) := by
  constructor
  · rintro rfl
    rw [b.entry_eq h, entryAt, MemoryRoot.get?_put, if_pos rfl]
  · intro hj
    cases hq : b.physicalKeyBlob j with
    | error e => unfold entry; rw [hq]
    | ok q =>
      rw [b.entry_eq hq, b.entry_eq hq, entryAt, MemoryRoot.get?_put, if_neg]
      · rfl
      · rintro rfl
        exact hj (b.physicalKeyBlob_injective hq h)

theorem entry_pop {k : K} {p : List α} (h : b.physicalKeyBlob k = .ok p) (r : MemoryRoot α VB)
    (j : K) :
    (j = k → b.entry (r.pop b.collection p) j = none) ∧
    (j ≠ k → b.entry (r.pop b.collection p) j = b.entry r j) := by
  constructor
  · rintro rfl
    rw [b.entry_eq h, entryAt, MemoryRoot.get?_pop, if_pos rfl]
  · intro hj
    cases hq : b.physicalKeyBlob j with
    | error e => unfold entry; rw [hq]
    | ok q =>
      rw [b.entry_eq hq, b.entry_eq hq, entryAt, MemoryRoot.get?_pop, if_neg]
      · rfl
      · rintro rfl
        exact hj (b.physicalKeyBlob_injective hq h)

theorem set_apply {k : K} {p : List α} (h : b.physicalKeyBlob k = .ok p) (v : V)
    (o : WriteOptions) (r : MemoryRoot α VB) :
    b.set k v o r = (.ok (), r.put b.collection p (b.kvset.valueSerde.serialize v)
      (b.expiresAt r o.ttl o.createdAt) (clockBase r o.createdAt)) := by
  unfold set
  rw [b.physicalKey_ok h]
  rfl

theorem delete_apply {k : K} {p : List α} (h : b.physicalKeyBlob k = .ok p) (r : MemoryRoot α VB) :
    b.delete k r = (.ok (b.entry r k).isSome, r.pop b.collection p) := by
  unfold delete
  rw [b.physicalKey_ok h, b.entry_eq h]
  rfl

theorem later_set (k : K) (v : V) (o : WriteOptions) : Moves b.Later (b.set k v o) := by
  intro r
  cases h : b.physicalKeyBlob k with
  | ok p =>
    rw [b.set_apply h]
    exact MemoryRoot.later_put ..
  | error e =>
    unfold set
    rw [b.physicalKey_error h, raise_bind]
    exact Std.Refl.refl _

theorem later_delete (k : K) : Moves b.Later (b.delete k) := by
  intro r
  cases h : b.physicalKeyBlob k with
  | ok p =>
    rw [b.delete_apply h]
    exact MemoryRoot.later_pop ..
  | error e =>
    unfold delete
    rw [b.physicalKey_error h, raise_bind]
    exact Std.Refl.refl _

/-- A live read of a key: nothing changes, or its expired entry goes. -/
theorem liveEntry_state (k : K) (r : MemoryRoot α VB) :
    (b.liveEntry k r).2 = r ∨ ∃ p e, b.physicalKeyBlob k = .ok p ∧ b.entryAt r p = some e ∧
      expired e r.clock = true ∧ (b.liveEntry k r).2 = r.pop b.collection p := by
  unfold liveEntry
  cases h : b.physicalKeyBlob k with
  | error e =>
    rw [b.physicalKey_error h, raise_bind]
    exact .inl rfl
  | ok p =>
    rw [b.physicalKey_ok h, pure_bind, bind_apply, read_apply]
    simp only
    cases he : b.entryAt r p with
    | none => exact .inl rfl
    | some e =>
      simp only
      split
      · next hx =>
        unfold lazyDelete Prog.when
        split
        · exact .inr ⟨p, e, rfl, he, hx, rfl⟩
        · exact .inl rfl
      · exact .inl rfl

theorem deserializeValue_readOnly (blob : VB) : ReadOnly (b.deserializeValue blob) := by
  intro r
  unfold deserializeValue
  cases b.kvset.valueSerde.deserialize blob <;> rfl

theorem get_state (k : K) (r : MemoryRoot α VB) : (b.get k r).2 = (b.liveEntry k r).2 := by
  unfold get
  rcases h : b.liveEntry k r with ⟨e | entry, r'⟩
  · rw [bind_error h]
  · rw [bind_ok h]
    cases entry with
    | none => rfl
    | some entry =>
      simp only
      have hd := b.deserializeValue_readOnly entry.valueBlob r'
      rcases hv : b.deserializeValue entry.valueBlob r' with ⟨e | v, r''⟩ <;> rw [hv] at hd
      · rw [bind_error hv]; exact hd
      · rw [bind_ok hv]; exact hd

/-- A read answers with what the bucket holds live. -/
theorem get_found (k : K) (r : MemoryRoot α VB) (x : Option V) (hx : (b.get k r).1 = .ok x) :
    x = (b.entry r k).bind (b.live r) := by
  unfold get liveEntry at hx
  cases h : b.physicalKeyBlob k with
  | error e =>
    rw [b.physicalKey_error h, raise_bind, raise_bind] at hx
    cases hx
  | ok p =>
    rw [b.physicalKey_ok h, pure_bind, bind_assoc, bind_apply, read_apply] at hx
    rw [b.entry_eq h]
    cases he : b.entryAt r p with
    | none =>
      simp only [he] at hx
      cases hx
      rfl
    | some e =>
      simp only [he] at hx
      split at hx
      · next hexpired =>
        rw [bind_assoc] at hx
        have hnone : x = none := by
          unfold lazyDelete Prog.when at hx
          split at hx <;> cases hx <;> rfl
        rw [hnone]
        simp [live, hexpired]
      · next hexpired =>
        rw [pure_bind] at hx
        unfold deserializeValue at hx
        cases hd : b.kvset.valueSerde.deserialize e.valueBlob with
        | none => simp only [hd] at hx; cases hx
        | some v =>
          simp only [hd] at hx
          cases hx
          simp [live, hexpired, hd]

/-- A read against versions changes nothing, and shows what the bucket holds. -/
theorem readVersioned_spec (k : K) (r : MemoryRoot α VB) :
    (b.readVersioned k r).2 = r ∧ ∀ x, (b.readVersioned k r).1 = .ok x →
      x = ⟨(b.entry r k).bind (b.live r), (b.entry r k).map fun e => Token.identity e.id⟩ := by
  unfold readVersioned
  cases h : b.physicalKeyBlob k with
  | error e =>
    rw [b.physicalKey_error h, raise_bind]
    exact ⟨rfl, fun x hx => by cases hx⟩
  | ok p =>
    rw [b.physicalKey_ok h, pure_bind, bind_apply, read_apply, b.entry_eq h]
    simp only
    cases he : b.entryAt r p with
    | none => exact ⟨rfl, fun x hx => by cases hx; rfl⟩
    | some e =>
      simp only
      split
      · next hx =>
        refine ⟨rfl, fun x hv => ?_⟩
        cases hv
        simp [live, hx]
      · next hx =>
        unfold deserializeValue
        cases hd : b.kvset.valueSerde.deserialize e.valueBlob with
        | none => exact ⟨rfl, fun x hv => by cases hv⟩
        | some v =>
          refine ⟨rfl, fun x hv => ?_⟩
          cases hv
          simp [live, hx, hd]

theorem writeIfUnchanged_apply {f : K → List α} (hf : ∀ k, b.physicalKeyBlob k = .ok (f k))
    (ttl : Option TtlPolicy) (k : K) (w : ConditionalWrite V) (r : MemoryRoot α VB) :
    b.writeIfUnchanged ttl k w r =
      if (b.entry r k).map (fun e => Token.identity e.id) ≠ w.seen.version then (.ok false, r)
      else (match w.change with
        | .remove => b.delete k
        | .put value => b.set k value ⟨ttl, w.createdAt⟩ >>= fun _ => pure true :
          M (MemoryRoot α VB) Bool) r := by
  unfold writeIfUnchanged
  rw [b.physicalKey_ok (hf k), pure_bind, bind_apply, read_apply, b.entry_eq (hf k)]
  simp only
  split <;> rfl

/-- A compare and write of an entry, by its identity. -/
theorem writesOne {f : K → List α} (hf : ∀ k, b.physicalKeyBlob k = .ok (f k))
    (ttl : Option TtlPolicy) (k : K) (w : ConditionalWrite V) (r : MemoryRoot α VB) :
    WritesOne (b.writeIfUnchanged ttl) b.entry b.Later
      (fun w before after => w.seen.version = before.map (fun e => Token.identity e.id) ∧
        Stored (fun e : Entry VB => b.kvset.valueSerde.deserialize e.valueBlob) w.change after)
      k w r := by
  have hrun := b.writeIfUnchanged_apply hf ttl k w r
  by_cases hv : (b.entry r k).map (fun e => Token.identity e.id) = w.seen.version
  · rw [if_neg (not_not.mpr hv)] at hrun
    cases hc : w.change with
    | put value =>
      rw [hc] at hrun
      simp only at hrun
      rw [bind_ok (b.set_apply (hf k) value _ r), pure_apply] at hrun
      have hent := fun j => b.entry_put (hf k) r (b.kvset.valueSerde.serialize value)
        (b.expiresAt r ttl w.createdAt) (clockBase r w.createdAt) j
      refine ⟨?_, fun j hj => ?_, true, ?_, ?_⟩ <;> rw [hrun]
      · exact MemoryRoot.later_put ..
      · exact (hent j).2 hj
      · rw [if_pos rfl, (hent k).1 rfl, hc]
        exact ⟨hv.symm, _, rfl, b.kvset.valueSerde.roundtrip value⟩
    | remove =>
      rw [hc] at hrun
      simp only at hrun
      rw [b.delete_apply (hf k)] at hrun
      refine ⟨?_, fun j hj => ?_, (b.entry r k).isSome, ?_, ?_⟩ <;> rw [hrun]
      · exact MemoryRoot.later_pop ..
      · exact (b.entry_pop (hf k) r j).2 hj
      · rw [(b.entry_pop (hf k) r k).1 rfl, hc]
        cases he : b.entry r k with
        | none => rfl
        | some e => exact ⟨by rw [← hv, he], rfl⟩
  · rw [if_pos hv] at hrun
    refine ⟨?_, fun j _ => ?_, false, ?_, ?_⟩ <;> rw [hrun] <;> try rfl
    exact Std.Refl.refl _

variable [DecidableEq K]

/-- Where no key of the view can be written, a batch of writes does nothing. -/
theorem eachConditional_error {e : Exn} (he : ∀ k, b.physicalKeyBlob k = .error e)
    (ttl : Option TtlPolicy) (ws : Dict K (ConditionalWrite V)) (r : MemoryRoot α VB) :
    eachConditional (b.writeIfUnchanged ttl) ws r = (.ok ∅, r) ∨
      eachConditional (b.writeIfUnchanged ttl) ws r = (.error e, r) := by
  unfold eachConditional
  cases ws.entries with
  | nil => exact .inl rfl
  | cons x es =>
    refine .inr ?_
    have hw : addWritten (b.writeIfUnchanged ttl) ∅ x r = (.error e, r) := by
      unfold addWritten writeIfUnchanged
      rw [b.physicalKey_error (he x.1), raise_bind, raise_bind]
      rfl
    rw [List.foldlM_cons, bind_error hw]

end MemoryKvBackend

/-- A memory store names each entry by its identity. -/
def memoryVersioning {K V α VB : Type} [DecidableEq K] [DecidableEq α]
    (b : MemoryKvBackend K V α VB) : Versioning b.store.toKeyMap where
  E := Entry VB
  entry := b.entry
  version e := .identity e.id
  value e := b.kvset.valueSerde.deserialize e.valueBlob
  live := b.live
  Later := b.Later
  later_refl := Std.Refl.refl
  later_trans := IsTrans.trans
  shows r e v h := by
    unfold MemoryKvBackend.live at h
    split at h
    · cases h
    · exact h
  names r r' k e e' hr he he' hv := by
    cases hp : b.physicalKeyBlob k with
    | error x =>
      unfold MemoryKvBackend.entry at he
      rw [hp] at he
      cases he
    | ok p =>
      rw [b.entry_eq hp] at he he'
      have hid : e.id = e'.id := Token.identity.inj hv
      have hlt : e'.id < r.nextId := hid ▸ MemoryRoot.bucket_fresh he
      exact Option.some.inj (he.symm.trans (hr.2 p e' he' hlt))
  read ks r := by
    obtain ⟨hstate, hread⟩ := foldlM_set_readOnly (fun k r => (b.readVersioned_spec k r).1)
      (Dict.unique ks) Dict.empty r
    have hstate' : (b.store.batchReadVersioned ks r).2 = r := hstate
    rw [hstate']
    refine ⟨Std.Refl.refl _, fun _ => rfl, fun seen hseen k hk => ?_⟩
    have hk' := hread seen hseen k
    rw [if_pos (Dict.mem_unique.mpr hk)] at hk'
    obtain ⟨x, hx, hget⟩ := hk'
    rw [hget, (b.readVersioned_spec k r).2 x hx]
  write ws ttl r := by
    show MemoryRoot.Later _ r (eachConditional (b.writeIfUnchanged ttl) ws r).2 ∧
      match (eachConditional (b.writeIfUnchanged ttl) ws r).1 with
      | .ok written => _
      | .error _ => _
    rcases b.physicalKeyBlob_total with ⟨f, -, hf⟩ | ⟨e, he⟩
    · obtain ⟨written, hw, hlater, hspec⟩ := eachConditional_spec (b.writesOne hf ttl) ws r
      rw [hw]
      exact ⟨hlater, hspec⟩
    · have hwrites : b.store.batchWriteIfUnchanged ws ttl r = eachConditional (b.writeIfUnchanged ttl) ws r := rfl
      rcases b.eachConditional_error he ttl ws r with hr | hr <;> rw [hr]
      · refine ⟨Std.Refl.refl _, fun k => ?_⟩
        rw [if_neg (by simp), hwrites, hr]
      · refine ⟨Std.Refl.refl _, fun k => ?_⟩
        rw [hwrites, hr]
  found := b.get_found
  get k r := by
    show MemoryRoot.Later _ r (b.get k r).2 ∧ ∀ j, b.entry (b.get k r).2 j = _ ∨
      b.entry (b.get k r).2 j = none ∧ _
    rw [b.get_state]
    rcases b.liveEntry_state k r with h | ⟨p, e, hp, he, hx, h⟩ <;> rw [h]
    · exact ⟨Std.Refl.refl _, fun _ => .inl rfl⟩
    · refine ⟨MemoryRoot.later_pop .., fun j => ?_⟩
      by_cases hj : j = k
      · subst hj
        refine .inr ⟨(b.entry_pop hp r j).1 rfl, e, by rw [b.entry_eq hp, he], ?_⟩
        unfold MemoryKvBackend.live
        rw [if_pos hx]
      · exact .inl ((b.entry_pop hp r j).2 hj)
  set := b.later_set
  delete := b.later_delete

/-- Any number of clients, each with any requests, over one `DictKeyMap` or one memory
    store, their steps in any order, time passing in between: no update is lost. -/
theorem no_lost_update {K T : Type} [DecidableEq K] :
    (dictVersioning K T).NoLostUpdate (fun (_ : Empty) s => s) ∧
    ∀ {α VB : Type} [DecidableEq α] (b : MemoryKvBackend K T α VB),
      (memoryVersioning b).NoLostUpdate fun d r => r.advance d :=
  ⟨(dictVersioning K T).noLostUpdate _ (fun d => d.elim) fun d => d.elim,
    fun b => (memoryVersioning b).noLostUpdate _
      (fun d r => MemoryRoot.later_advance r b.collection d) fun _ _ _ => rfl⟩

end Kvtsjl
