import Kvtsjl.NoLostUpdate

/-
  What a memory store holds, as a function from keys to values.
  `Sets` says what a step leaves there. A view either can write every key or none, so a
  step that raises has changed nothing.
-/

namespace Kvtsjl

open Assoc (Dict)
open Effects Prog

/-! ## What the memory store holds -/

namespace MemoryKvBackend

variable {K V α VB : Type} [DecidableEq α] (b : MemoryKvBackend K V α VB)

/-- The value stored for a key, expired or not. -/
def value (r : MemoryRoot α VB) (k : K) : Option V :=
  (b.entry r k).bind fun e => b.kvset.valueSerde.deserialize e.valueBlob

variable [DecidableEq K]

/-- A step on the store that set out to leave `after` as its values: it did, or it raised
    and nothing happened. -/
def Sets {β : Type} (m : M (MemoryRoot α VB) β) (r : MemoryRoot α VB) (after : K → Option V) : Prop :=
  ((∃ a, (m r).1 = .ok a) ∧ ∀ j, b.value (m r).2 j = after j) ∨ ∃ e, m r = (.error e, r)

theorem set_value {f : K → List α} (hf : ∀ k, b.physicalKeyBlob k = .ok (f k)) (k : K) (v : V)
    (o : WriteOptions) (r : MemoryRoot α VB) (j : K) :
    (b.set k v o r).1 = .ok () ∧
      b.value (b.set k v o r).2 j = if j = k then some v else b.value r j := by
  rw [b.set_apply (hf k)]
  refine ⟨rfl, ?_⟩
  have hent := b.entry_put (hf k) r (b.kvset.valueSerde.serialize v)
    (b.expiresAt r o.ttl o.createdAt) (clockBase r o.createdAt) j
  unfold value
  by_cases hj : j = k
  · rw [hent.1 hj, if_pos hj, Option.bind_some, b.kvset.valueSerde.roundtrip]
  · rw [hent.2 hj, if_neg hj]

theorem delete_value {f : K → List α} (hf : ∀ k, b.physicalKeyBlob k = .ok (f k)) (k : K)
    (r : MemoryRoot α VB) (j : K) :
    (b.delete k r).1 = .ok (b.entry r k).isSome ∧
      b.value (b.delete k r).2 j = if j = k then none else b.value r j := by
  rw [b.delete_apply (hf k)]
  refine ⟨rfl, ?_⟩
  unfold value
  by_cases hj : j = k
  · rw [(b.entry_pop (hf k) r j).1 hj, if_pos hj]
    rfl
  · rw [(b.entry_pop (hf k) r j).2 hj, if_neg hj]

omit [DecidableEq K] in
theorem set_error {e : Exn} (he : ∀ k, b.physicalKeyBlob k = .error e) (k : K) (v : V)
    (o : WriteOptions) (r : MemoryRoot α VB) : b.set k v o r = (.error e, r) := by
  unfold set
  rw [b.physicalKey_error (he k), raise_bind]
  rfl

omit [DecidableEq K] in
theorem delete_error {e : Exn} (he : ∀ k, b.physicalKeyBlob k = .error e) (k : K)
    (r : MemoryRoot α VB) : b.delete k r = (.error e, r) := by
  unfold delete
  rw [b.physicalKey_error (he k), raise_bind]
  rfl

theorem set_sets (k : K) (v : V) (o : WriteOptions) (r : MemoryRoot α VB) :
    b.Sets (b.set k v o) r fun j => if j = k then some v else b.value r j := by
  rcases b.physicalKeyBlob_total with ⟨f, -, hf⟩ | ⟨e, he⟩
  · exact .inl ⟨⟨(), (b.set_value hf k v o r k).1⟩, fun j => (b.set_value hf k v o r j).2⟩
  · exact .inr ⟨e, b.set_error he k v o r⟩

theorem delete_sets (k : K) (r : MemoryRoot α VB) :
    b.Sets (b.delete k) r fun j => if j = k then none else b.value r j := by
  rcases b.physicalKeyBlob_total with ⟨f, -, hf⟩ | ⟨e, he⟩
  · exact .inl ⟨⟨_, (b.delete_value hf k r k).1⟩, fun j => (b.delete_value hf k r j).2⟩
  · exact .inr ⟨e, b.delete_error he k r⟩

theorem batchSet_sets (items : Dict K V) (o : WriteOptions) (r : MemoryRoot α VB) :
    b.Sets (b.batchSet items o) r fun j => (items.get? j).elim (b.value r j) some := by
  rcases b.physicalKeyBlob_total with ⟨f, -, hf⟩ | ⟨e, he⟩
  · refine .inl ?_
    have hloop : ∀ es : List (K × V), (es.map Prod.fst).Nodup → ∀ r : MemoryRoot α VB,
        ((forM es fun e => b.set e.1 e.2 o : M (MemoryRoot α VB) PUnit) r).1 = .ok ⟨⟩ ∧
        ∀ j, b.value ((forM es fun e => b.set e.1 e.2 o : M (MemoryRoot α VB) PUnit) r).2 j =
          (Assoc.lookup j es).elim (b.value r j) some := by
      intro es
      induction es with
      | nil => exact fun _ r => ⟨rfl, fun _ => rfl⟩
      | cons e es ih =>
        intro hn r
        obtain ⟨k, v⟩ := e
        rw [List.map_cons, List.nodup_cons] at hn
        have hok := (b.set_value hf k v o r k).1
        rw [List.forM_cons, bind_ok (Prod.ext hok rfl)]
        obtain ⟨hok', hval⟩ := ih hn.2 (b.set k v o r).2
        refine ⟨hok', fun j => ?_⟩
        rw [hval j, (b.set_value hf k v o r j).2]
        by_cases hj : k = j
        · subst hj
          rw [Assoc.lookup_eq_none.mpr hn.1]
          simp [Assoc.lookup]
        · rw [if_neg (Ne.symm hj)]
          simp [Assoc.lookup, hj]
    obtain ⟨hok, hval⟩ := hloop items.entries items.nodup r
    exact ⟨⟨_, hok⟩, hval⟩
  · cases hes : items.entries with
    | nil =>
      refine .inl ⟨⟨(), ?_⟩, fun j => ?_⟩
      · unfold batchSet defaultBatchSet
        rw [hes]
        rfl
      · unfold batchSet defaultBatchSet Dict.get?
        rw [hes]
        rfl
    | cons x xs =>
      refine .inr ⟨e, ?_⟩
      unfold batchSet defaultBatchSet
      rw [hes, List.forM_cons, bind_error (b.set_error he _ _ o r)]

theorem batchDelete_sets (keys : List K) (r : MemoryRoot α VB) :
    b.Sets (countTrue b.delete keys) r fun j => if j ∈ keys then none else b.value r j := by
  rcases b.physicalKeyBlob_total with ⟨f, -, hf⟩ | ⟨e, he⟩
  · refine .inl ?_
    have hloop : ∀ (ks : List K) (n : Nat) (r : MemoryRoot α VB),
        let run := (ks.foldlM (fun n key => do
          if ← b.delete key then pure (n + 1) else pure n) n : M (MemoryRoot α VB) Nat) r
        (∃ m, run.1 = .ok m) ∧ ∀ j, b.value run.2 j = if j ∈ ks then none else b.value r j := by
      intro ks
      induction ks with
      | nil => exact fun n r => ⟨⟨n, rfl⟩, fun j => rfl⟩
      | cons k ks ih =>
        intro n r run
        have hok := (b.delete_value hf k r k).1
        have hrun : run = (ks.foldlM (fun n key => do
            if ← b.delete key then pure (n + 1) else pure n)
              (if (b.entry r k).isSome then n + 1 else n) : M (MemoryRoot α VB) Nat)
            (b.delete k r).2 := by
          show ((k :: ks).foldlM _ n : M (MemoryRoot α VB) Nat) r = _
          rw [List.foldlM_cons, bind_assoc, bind_ok (Prod.ext hok rfl)]
          split <;> rfl
        obtain ⟨hok', hval⟩ := ih (if (b.entry r k).isSome then n + 1 else n) (b.delete k r).2
        rw [hrun]
        refine ⟨hok', fun j => ?_⟩
        rw [hval j, (b.delete_value hf k r j).2]
        by_cases hj : j = k <;> simp [hj]
    exact hloop keys 0 r
  · cases keys with
    | nil => exact .inl ⟨⟨0, rfl⟩, fun j => rfl⟩
    | cons k ks =>
      refine .inr ⟨e, ?_⟩
      unfold countTrue
      rw [List.foldlM_cons, bind_assoc, bind_error (b.delete_error he k r)]

/-- A conditional batch stores what it says it wrote. -/
theorem conditional_value (ttl : Option TtlPolicy) (ws : Dict K (ConditionalWrite V))
    (r : MemoryRoot α VB) :
    (∃ written, (eachConditional (b.writeIfUnchanged ttl) ws r).1 = .ok written ∧
      (∀ j ∈ written, ∃ w, ws.get? j = some w) ∧ ∀ j, b.value (eachConditional (b.writeIfUnchanged ttl) ws r).2 j =
        if j ∈ written then (ws.get? j).bind fun w => w.change.value? else b.value r j) ∨
    ∃ e, eachConditional (b.writeIfUnchanged ttl) ws r = (.error e, r) := by
  rcases b.physicalKeyBlob_total with ⟨f, -, hf⟩ | ⟨e, he⟩
  · obtain ⟨written, hw, -, hspec⟩ := eachConditional_spec (b.writesOne hf ttl) ws r
    refine .inl ⟨written, hw, fun j hin => ?_, fun j => ?_⟩
    · have hj := hspec j
      rw [if_pos hin] at hj
      obtain ⟨w, hwj, -⟩ := hj
      exact ⟨w, hwj⟩
    have hj := hspec j
    unfold value
    by_cases hin : j ∈ written
    · rw [if_pos hin] at hj
      obtain ⟨w, hwj, -, hstored⟩ := hj
      rw [if_pos hin, hwj, Option.bind_some]
      cases hc : w.change with
      | put v =>
        rw [hc] at hstored
        obtain ⟨x, hx, hv⟩ := hstored
        rw [hx]
        exact hv
      | remove =>
        rw [hc] at hstored
        have hnone : b.entry _ j = none := hstored
        rw [hnone]
        rfl
    · rw [if_neg hin] at hj
      rw [if_neg hin, hj]
  · rcases b.eachConditional_error he ttl ws r with h | h
    · exact .inl ⟨∅, by rw [h], by simp, fun j => by rw [h]; simp⟩
    · exact .inr ⟨e, h⟩

end MemoryKvBackend

end Kvtsjl
