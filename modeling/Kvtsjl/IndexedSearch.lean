import Kvtsjl.MemoryValues
import Kvtsjl.OpSteps
import Kvtsjl.TermIndex
import Kvtsjl.WholeTarget

/-
  A memory store with a term index, over whole runs.
  `Owes ops` says that the store took some operations, and that the index was told of all
  of them but for the last, `ops`. The authority's write leaves the index owed what it
  stored, and each sync pays one off. So every operation of the store, failing ones
  included, `Tracks`: nothing is owed at its end. An index that is told all files every
  key under exactly the terms of the value the store holds for it (`InStep`).
-/

namespace Kvtsjl

open Assoc (Dict)
open Effects Prog

namespace IndexedSearch

variable {K V α VB P : Type} [DecidableEq K] [DecidableEq V] [DecidableEq α]

/-- The media of a memory store and of its index. -/
abbrev Media (K α VB : Type) [DecidableEq α] : Type := MemoryRoot α VB × TermPostings K

/-- `IndexedKvStore` over a memory store, with one term index attached. -/
def topology (b : MemoryKvBackend K V α VB) (label : String) (termsOf : K → V → List String)
    (policy : SyncPolicy) : Topology (Media K α VB) K V P where
  targets := [
    storeTarget ⟨"store", .authority, none, false, .required⟩ (b.store.zoom Lens.first) some id,
    indexesTarget [(memoryTermIndex label termsOf true).zoom Lens.second] policy]
  parts := []
  assemble := none

def store (b : MemoryKvBackend K V α VB) (label : String) (termsOf : K → V → List String)
    (policy : SyncPolicy) : KvStore (Node (Media K α VB) K V P) K V :=
  (topology b label termsOf policy).store "IndexedKvStore"

variable (b : MemoryKvBackend K V α VB) (label : String) (termsOf : K → V → List String)
  (policy : SyncPolicy)

/-- The store, as the authority among the targets. -/
def authorityTarget : AnyTarget (Media K α VB) K V P :=
  Target.upcast Sum.inl (storeTarget ⟨"store", .authority, none, false, .required⟩
    (b.store.zoom Lens.first) some id)

/-- The index, as the dependent among the targets. -/
def indexTarget : AnyTarget (Media K α VB) K V P :=
  Target.upcast Sum.inl
    (indexesTarget [(memoryTermIndex label termsOf true).zoom Lens.second] policy)

theorem committing_eq : (topology b label termsOf policy : Topology _ K V P).committing =
    [authorityTarget b] := rfl

theorem dependents_eq : (topology b label termsOf policy : Topology _ K V P).dependents =
    [indexTarget label termsOf policy] := rfl

theorem authority_eq : (topology b label termsOf policy : Topology _ K V P).authority =
    some (authorityTarget b) := rfl

theorem removedAfterCommit_eq :
    (topology b label termsOf policy : Topology _ K V P).removedAfterCommit =
      [indexTarget label termsOf policy] := rfl

/-! ## What the index is told -/

/-- The postings after an operation on the index. -/
def posted (p : TermPostings K) : SyncOp K V → TermPostings K
  | .write key value _ => p.upsert termsOf key value
  | .batchWrite items _ => items.entries.foldl (fun p e => p.upsert termsOf e.1 e.2) p
  | .delete key => p.delete key
  | .unset key => p.delete key
  | .batchDelete keys => keys.foldl (fun p k => p.delete k) p
  | .batchUnset keys => keys.foldl (fun p k => p.delete k) p

omit [DecidableEq K] [DecidableEq V] [DecidableEq α] in
/-- The one index attached is attempted, and does not fail. -/
theorem each_single {S : Type} {i : Index S K V} (hi : i.syncOnWrite = true)
    {op : Index S K V → M S Unit} {s s' : S} (h : op i s = (.ok (), s')) (what : String) :
    each [i] op what s = (.ok (), s') := by
  have hfail : eachFailure [i] op s = (.ok [], s') := by
    unfold eachFailure
    rw [List.filter_cons_of_pos hi, List.filter_nil, List.foldlM_cons, bind_assoc,
      bind_ok (attempt_apply _ s), h]
    rfl
  unfold each
  rw [bind_ok hfail, if_pos rfl]
  rfl

omit [DecidableEq V] [DecidableEq α] in
theorem batchSync_apply (es : List (K × V)) (p : TermPostings K) :
    (forM es fun e => modify fun p => p.upsert termsOf e.1 e.2 : M (TermPostings K) PUnit) p =
      (.ok ⟨⟩, es.foldl (fun p e => p.upsert termsOf e.1 e.2) p) := by
  induction es generalizing p with
  | nil => rfl
  | cons e es ih =>
    rw [List.forM_cons, bind_ok (modify_apply _ p)]
    exact ih _

theorem batchDelete_apply (ks : List K) (n : Nat) (p : TermPostings K) :
    ∃ m, (ks.foldlM (fun n key => do
      if ← TermPostings.deleteKey key then pure (n + 1) else pure n) n :
        M (TermPostings K) Nat) p = (.ok m, ks.foldl (fun p k => p.delete k) p) := by
  induction ks generalizing n p with
  | nil => exact ⟨n, rfl⟩
  | cons k ks ih =>
    have hstep : (TermPostings.deleteKey k : M (TermPostings K) Bool) p =
        (.ok (!(p.terms k).isEmpty), p.delete k) := rfl
    rw [List.foldlM_cons, bind_assoc, bind_ok hstep]
    split
    · exact ih (n + 1) (p.delete k)
    · exact ih n (p.delete k)

/-- The operations the store passes on to the index, but for `unset`. -/
def Passed : SyncOp K V → Prop
  | .unset _ => False
  | .batchUnset _ => False
  | _ => True

omit [DecidableEq V] in
theorem on_index (op : SyncOp K V) (hop : Passed op) (s : Media K α VB) :
    op.on (indexTarget label termsOf policy : AnyTarget (Media K α VB) K V P) s =
      (.ok (), (s.1, posted termsOf s.2 op)) := by
  have hindex : ((memoryTermIndex label termsOf true).zoom
      (Lens.second : Lens (Media K α VB) (TermPostings K))).syncOnWrite = true := rfl
  cases op with
  | write key value o =>
    exact each_single hindex rfl _
  | batchWrite items o =>
    refine each_single hindex ?_ _
    show Lens.second.zoom (forM items.entries _) s = _
    rw [Lens.zoom_apply]
    show (((forM items.entries _ : M (TermPostings K) PUnit) s.2).1,
      (s.1, ((forM items.entries _ : M (TermPostings K) PUnit) s.2).2)) = _
    rw [batchSync_apply]
    rfl
  | delete key =>
    have hrun : each [(memoryTermIndex label termsOf true).zoom
        (Lens.second : Lens (Media K α VB) (TermPostings K))]
        (fun i => Functor.discard (i.delete key)) "delete" s =
          (.ok (), (s.1, s.2.delete key)) := each_single hindex rfl _
    show Functor.discard (each _ _ _ >>= fun _ => pure false) s = _
    rw [discard_apply, bind_ok hrun]
    rfl
  | batchDelete keys =>
    have hrun : each [(memoryTermIndex label termsOf true).zoom
        (Lens.second : Lens (Media K α VB) (TermPostings K))]
        (fun i => Functor.discard (i.batchDelete keys)) "batch delete" s =
          (.ok (), (s.1, keys.foldl (fun p k => p.delete k) s.2)) := by
      refine each_single hindex ?_ _
      obtain ⟨m, hm⟩ := batchDelete_apply keys 0 s.2
      show Functor.discard (Lens.second.zoom (countTrue TermPostings.deleteKey keys)) s = _
      rw [discard_apply, Lens.zoom_apply]
      show ((countTrue TermPostings.deleteKey keys s.2).1.map _,
        (s.1, (countTrue TermPostings.deleteKey keys s.2).2)) = _
      unfold countTrue
      rw [hm]
      rfl
    show Functor.discard (each _ _ _ >>= fun _ => pure 0) s = _
    rw [discard_apply, bind_ok hrun]
    rfl
  | unset key => exact hop.elim
  | batchUnset keys => exact hop.elim

/-! ## What an operation leaves -/

/-- What the store holds after an operation that succeeds. -/
def left (values : K → Option V) : SyncOp K V → K → Option V
  | .write key value _ => fun j => if j = key then some value else values j
  | .batchWrite items _ => fun j => (items.get? j).elim (values j) some
  | .delete key => fun j => if j = key then none else values j
  | .unset key => fun j => if j = key then none else values j
  | .batchDelete keys => fun j => if j ∈ keys then none else values j
  | .batchUnset keys => fun j => if j ∈ keys then none else values j

/-- The postings file every key under the terms of its value, and no others. -/
def Files (p : TermPostings K) (values : K → Option V) : Prop :=
  ∀ k, p.terms k = (values k).elim [] fun v => Dict.unique (termsOf k v)

omit [DecidableEq V] [DecidableEq α] in
theorem terms_upserts {es : List (K × V)} (hn : (es.map Prod.fst).Nodup) (p : TermPostings K)
    (j : K) : (es.foldl (fun p e => p.upsert termsOf e.1 e.2) p).terms j =
      (Assoc.lookup j es).elim (p.terms j) fun v => Dict.unique (termsOf j v) := by
  induction es generalizing p with
  | nil => rfl
  | cons e es ih =>
    obtain ⟨k, v⟩ := e
    rw [List.map_cons, List.nodup_cons] at hn
    rw [List.foldl_cons, ih hn.2, TermPostings.terms_upsert]
    by_cases hj : k = j
    · subst hj
      rw [Assoc.lookup_eq_none.mpr hn.1]
      simp [Assoc.lookup]
    · rw [if_neg (Ne.symm hj)]
      simp [Assoc.lookup, hj]

theorem terms_deletes (ks : List K) (p : TermPostings K) (j : K) :
    (ks.foldl (fun p k => p.delete k) p).terms j = if j ∈ ks then [] else p.terms j := by
  induction ks generalizing p with
  | nil => rfl
  | cons k ks ih =>
    rw [List.foldl_cons, ih, TermPostings.terms_delete]
    by_cases hj : j = k <;> simp [hj]

omit [DecidableEq V] [DecidableEq α] in
theorem files_posted {p : TermPostings K} {values : K → Option V} (h : Files termsOf p values)
    (op : SyncOp K V) : Files termsOf (posted termsOf p op) (left values op) := by
  intro j
  have hj := h j
  cases op with
  | write key value o =>
    show (p.upsert termsOf key value).terms j = (if j = key then some value else values j).elim _ _
    rw [TermPostings.terms_upsert]
    by_cases hk : j = key
    · rw [if_pos hk, if_pos hk, hk]
      rfl
    · rw [if_neg hk, if_neg hk, hj]
  | batchWrite items o =>
    show (items.entries.foldl _ p).terms j = ((items.get? j).elim (values j) some).elim _ _
    rw [terms_upserts termsOf items.nodup, hj]
    unfold Dict.get?
    cases Assoc.lookup j items.entries <;> rfl
  | delete key =>
    show (p.delete key).terms j = (if j = key then none else values j).elim _ _
    rw [TermPostings.terms_delete, hj]
    split <;> rfl
  | unset key =>
    show (p.delete key).terms j = (if j = key then none else values j).elim _ _
    rw [TermPostings.terms_delete, hj]
    split <;> rfl
  | batchDelete keys =>
    show (keys.foldl _ p).terms j = (if j ∈ keys then none else values j).elim _ _
    rw [terms_deletes, hj]
    split <;> rfl
  | batchUnset keys =>
    show (keys.foldl _ p).terms j = (if j ∈ keys then none else values j).elim _ _
    rw [terms_deletes, hj]
    split <;> rfl

omit [DecidableEq V] [DecidableEq α] in
theorem coherent_posted {p : TermPostings K} (h : p.Coherent) (op : SyncOp K V) :
    (posted termsOf p op).Coherent := by
  have hupserts : ∀ (es : List (K × V)) (p : TermPostings K), p.Coherent →
      (es.foldl (fun p e => p.upsert termsOf e.1 e.2) p).Coherent := by
    intro es
    induction es with
    | nil => exact fun p hp => hp
    | cons e es ih => exact fun p hp => ih _ (hp.upsert termsOf e.1 e.2)
  have hdeletes : ∀ (ks : List K) (p : TermPostings K), p.Coherent →
      (ks.foldl (fun p k => p.delete k) p).Coherent := by
    intro ks
    induction ks with
    | nil => exact fun p hp => hp
    | cons k ks ih => exact fun p hp => ih _ (hp.delete k)
  cases op with
  | write key value o => exact h.upsert termsOf key value
  | batchWrite items o => exact hupserts _ p h
  | delete key => exact h.delete key
  | unset key => exact h.delete key
  | batchDelete keys => exact hdeletes keys p h
  | batchUnset keys => exact hdeletes keys p h

/-! ## The index catches up -/

/-- The index is behind the store by these operations. -/
structure Behind (ops : List (SyncOp K V)) (n : Node (Media K α VB) K V P) : Prop where
  coherent : n.media.2.Coherent
  filed : Files termsOf (ops.foldl (posted termsOf) n.media.2) (b.value n.media.1)

/-- The index is behind by nothing. -/
abbrev InStep (n : Node (Media K α VB) K V P) : Prop := Behind b termsOf [] n

/-- A step that leaves the index in step, if it was. -/
def StaysInStep (n n' : Node (Media K α VB) K V P) : Prop :=
  InStep b termsOf n → InStep b termsOf n'

instance : Std.Refl (StaysInStep (P := P) b termsOf) := ⟨fun _ h => h⟩

instance : IsTrans (Node (Media K α VB) K V P) (StaysInStep b termsOf) :=
  ⟨fun _ _ _ h h' hn => h' (h hn)⟩

/-- Between two states the store took some operations, and the index was told of them but for the last. -/
def Owes (ops : List (SyncOp K V)) (n n' : Node (Media K α VB) K V P) : Prop :=
  ∃ told : List (SyncOp K V), n'.media.2 = told.foldl (posted termsOf) n.media.2 ∧
    b.value n'.media.1 = (told ++ ops).foldl left (b.value n.media.1)

/-- The index was told of all the store took. -/
abbrev Tracks (n n' : Node (Media K α VB) K V P) : Prop := Owes b termsOf [] n n'

instance : Std.Refl (Tracks (P := P) b termsOf) := ⟨fun _ => ⟨[], rfl, rfl⟩⟩

omit [DecidableEq V] in
theorem Tracks.owes {ops : List (SyncOp K V)} {n n' n'' : Node (Media K α VB) K V P}
    (h : Tracks b termsOf n n') (h' : Owes b termsOf ops n' n'') : Owes b termsOf ops n n'' := by
  obtain ⟨told, hposted, hleft⟩ := h
  obtain ⟨told', hposted', hleft'⟩ := h'
  refine ⟨told ++ told', ?_, ?_⟩
  · rw [hposted', hposted, List.foldl_append]
  · rw [hleft', hleft, List.append_nil, ← List.foldl_append, List.append_assoc]

instance : IsTrans (Node (Media K α VB) K V P) (Tracks b termsOf) := ⟨fun _ _ _ h h' => h.owes b termsOf h'⟩

omit [DecidableEq V] [DecidableEq α] in
theorem files_foldl {p : TermPostings K} {values : K → Option V} (h : Files termsOf p values)
    (ops : List (SyncOp K V)) :
    Files termsOf (ops.foldl (posted termsOf) p) (ops.foldl left values) := by
  induction ops generalizing p values with
  | nil => exact h
  | cons op ops ih => exact ih (files_posted termsOf h op)

omit [DecidableEq V] in
theorem coherent_foldl {p : TermPostings K} (h : p.Coherent) (ops : List (SyncOp K V)) :
    (ops.foldl (posted termsOf) p).Coherent := by
  induction ops generalizing p with
  | nil => exact h
  | cons op ops ih => exact ih (coherent_posted termsOf h op)

omit [DecidableEq V] in
/-- An index that is told all stays in step. -/
theorem Tracks.stays {n n' : Node (Media K α VB) K V P} (h : Tracks b termsOf n n') :
    StaysInStep b termsOf n n' := by
  obtain ⟨told, hposted, hleft⟩ := h
  intro hn
  refine ⟨?_, ?_⟩
  · rw [hposted]
    exact coherent_foldl termsOf hn.coherent told
  · show Files termsOf n'.media.2 _
    rw [hposted, hleft, List.append_nil]
    exact files_foldl termsOf hn.filed told

/-- One sync catches up with one operation. -/
theorem syncOne_owes {op : SyncOp K V} (hop : Passed op) {ops : List (SyncOp K V)}
    {n₀ n : Node (Media K α VB) K V P} (h : Owes b termsOf (op :: ops) n₀ n) (what : String)
    (syncPolicy : Option SyncPolicy) :
    ∃ n', (topology b label termsOf policy).syncOne (indexTarget label termsOf policy) what op
      syncPolicy n = (.ok (), n') ∧ Owes b termsOf ops n₀ n' := by
  have hrun := on_index label termsOf policy op hop n.media (P := P)
  obtain ⟨told, hposted, hleft⟩ := h
  have htold : Owes b termsOf ops n₀ ⟨(n.media.1, posted termsOf n.media.2 op), n.syncs⟩ := by
    refine ⟨told ++ [op], ?_, ?_⟩
    · rw [List.foldl_append, ← hposted]
      rfl
    · rw [List.append_assoc]
      exact hleft
  refine ⟨_, ?_, htold⟩
  show Node.onMedia (settle _ _ _ _ _ (op.on (indexTarget label termsOf policy))) n = _
  rw [Node.onMedia_apply]
  unfold settle
  rw [catching_ok hrun]

/-! ## The operations of the store -/

omit [DecidableEq V] in
/-- The commit point of an operation: the index falls behind by what was stored, or
    nothing was stored and the operation raises. -/
theorem commit_owes {β : Type} {m : M (MemoryRoot α VB) β} (n : Node (Media K α VB) K V P)
    (ops : List (SyncOp K V)) (hm : b.Sets m n.media.1 (ops.foldl left (b.value n.media.1))) :
    Does (Lens.first.zoom m) n.media fun _ s => Owes b termsOf ops n ⟨s, n.syncs⟩ := by
  rcases hm with ⟨⟨a, ha⟩, hval⟩ | ⟨e, he⟩
  · exact .inl ⟨a, ((m n.media.1).2, n.media.2), Lens.first_zoom (Prod.ext ha rfl), [], rfl, funext hval⟩
  · exact .inr ⟨e, Lens.first_zoom he⟩

theorem syncOne_tracks {op : SyncOp K V} (hop : Passed op) {n₀ n : Node (Media K α VB) K V P}
    (h : Owes b termsOf [op] n₀ n) (what : String) :
    Tracks b termsOf n₀ ((topology b label termsOf policy).syncOne
      (indexTarget label termsOf policy) what op none n).2 := by
  obtain ⟨n', hs, hb⟩ := syncOne_owes b label termsOf policy hop h what none
  rw [hs]
  exact hb

theorem sync_return {γ : Type} {op : SyncOp K V} (hop : Passed op)
    {n₀ n : Node (Media K α VB) K V P} (h : Owes b termsOf [op] n₀ n) (what : String) (c : γ) :
    Tracks b termsOf n₀ (((topology b label termsOf policy).syncOne
      (indexTarget label termsOf policy) what op none >>= fun _ => pure c) n).2 := by
  obtain ⟨n', hs, hb⟩ := syncOne_owes b label termsOf policy hop h what none
  rw [bind_ok hs]
  exact hb

theorem forM_single {γ σ : Type} (x : γ) (f : γ → M σ PUnit) : forM [x] f = f x := by
  rw [List.forM_cons, List.forM_nil, bind_pure]

theorem mapM_single {γ δ σ : Type} (x : γ) (f : γ → M σ δ) :
    [x].mapM f = f x >>= fun y => pure [y] := by
  rw [List.mapM_cons, List.mapM_nil]
  rfl

theorem write_tracks (key : K) (value : V) (o : WriteOptions) :
    Moves (Tracks b termsOf) ((topology b label termsOf policy : Topology _ K V P).write
      key value o) := by
  intro n
  unfold Topology.write Topology.toDependents
  rw [committing_eq, dependents_eq, forM_single, forM_single]
  have hm := commit_owes b termsOf n [.write key value o]
    (b.set_sets key value ((authorityTarget (P := P) b).receives o) _)
  exact (Node.onMedia_does (does_runCommitting hm _ _)).after_bind (p := Tracks b termsOf n) (Std.Refl.refl n) fun _ n' hb =>
    syncOne_tracks b label termsOf policy (by trivial) hb _

/-- The whole batch goes to the store. -/
theorem authority_batchWrite {items : Dict K V} (hne : items.entries ≠ []) (o : WriteOptions) :
    (authorityTarget b : AnyTarget (Media K α VB) K V P).batchWrite items o =
      Lens.first.zoom (b.batchSet items o) := by
  have h := whole_batchWrite (P := V) ⟨"store", .authority, none, false, .required⟩
    (b.store.zoom (Lens.first : Lens (Media K α VB) _)).toKeyMap id
    [(b.store.zoom (Lens.first : Lens (Media K α VB) _)).toSyncNode] items o
  unfold when at h
  rw [if_pos hne] at h
  exact h

theorem batchWrite_tracks (items : Dict K V) (o : WriteOptions) :
    Moves (Tracks b termsOf) ((topology b label termsOf policy : Topology _ K V P).batchWrite
      items o) := by
  intro n
  unfold Topology.batchWrite when
  split
  · next hne =>
    unfold Topology.toDependents
    rw [committing_eq, dependents_eq, forM_single, forM_single, authority_batchWrite b hne]
    have hm := commit_owes b termsOf n [.batchWrite items o]
      (b.batchSet_sets items ((authorityTarget (P := P) b).receives o) _)
    exact (Node.onMedia_does (does_runCommitting hm _ _)).after_bind (p := Tracks b termsOf n) (Std.Refl.refl n) fun _ n' hb =>
      syncOne_tracks b label termsOf policy (by trivial) hb _
  · exact Std.Refl.refl n

theorem remove_tracks (key : K) :
    Moves (Tracks b termsOf) ((topology b label termsOf policy : Topology _ K V P).remove
      .delete key) := by
  intro n
  unfold Topology.remove Topology.removedNow
  rw [authority_eq, removedAfterCommit_eq]
  simp only
  rw [mapM_single, forM_single]
  have hm := commit_owes b termsOf n [.delete key] (b.delete_sets key _)
  refine ((Node.onMedia_does hm).bind_pure _).after_bind (p := Tracks b termsOf n) (Std.Refl.refl n) fun _ n' hb => ?_
  obtain ⟨_, hb⟩ := hb
  exact sync_return b label termsOf policy (by trivial) hb _ _

theorem batchRemove_tracks (keys : List K) :
    Moves (Tracks b termsOf) ((topology b label termsOf policy : Topology _ K V P).batchRemove
      .delete keys none) := by
  intro n
  unfold Topology.batchRemove
  split
  · exact Std.Refl.refl n
  unfold Topology.heldBefore Topology.removedNow
  rw [authority_eq, removedAfterCommit_eq]
  simp only [Option.isNone_some, Bool.false_eq_true, if_false]
  rw [mapM_single, forM_single]
  have hheld : (Node.onMedia (pure ∅ : M (Media K α VB) (Finset K)) : M (Node _ K V P) _) n =
      (.ok ∅, n) := rfl
  rw [bind_ok hheld]
  have hm := commit_owes b termsOf n [.batchDelete (Dict.unique keys)]
    (b.batchDelete_sets (Dict.unique keys) _)
  refine ((Node.onMedia_does hm).bind_pure _).after_bind (p := Tracks b termsOf n) (Std.Refl.refl n) fun _ n' hb => ?_
  obtain ⟨_, hb⟩ := hb
  exact sync_return b label termsOf policy (by trivial) hb _ _

/-! ## Conditional batches -/

/-- The records of a group, as the index is told of them. -/
def groupOp (ttl : Option TtlPolicy) (g : Option Instant × Dict K V) : SyncOp K V :=
  .batchWrite g.2 ⟨ttl, g.1⟩

omit [DecidableEq V] in
/-- What the store holds after some of its records are stored in groups. -/
theorem left_groups (ttl : Option TtlPolicy) {d : Dict K V} (gs : List (Option Instant × Dict K V))
    (hsub : ∀ g ∈ gs, ∀ k v, g.2.get? k = some v → d.get? k = some v) (values : K → Option V)
    (j : K) : (∃ v, d.get? j = some v ∧ (gs.map (groupOp ttl)).foldl left values j = some v) ∨
      (∀ g ∈ gs, g.2.get? j = none) ∧ (gs.map (groupOp ttl)).foldl left values j = values j := by
  induction gs generalizing values with
  | nil => exact .inr ⟨by simp, rfl⟩
  | cons g gs ih =>
    rw [List.map_cons, List.foldl_cons]
    rcases ih (fun x hx => hsub x (List.mem_cons_of_mem _ hx)) (left values (groupOp ttl g)) with
      h | ⟨hnone, h⟩
    · exact .inl h
    · rw [h]
      show (∃ v, _ ∧ (g.2.get? j).elim (values j) some = some v) ∨
        _ ∧ (g.2.get? j).elim (values j) some = values j
      cases hg : g.2.get? j with
      | none => exact .inr ⟨List.forall_mem_cons.mpr ⟨hg, hnone⟩, rfl⟩
      | some v => exact .inl ⟨v, hsub g (by simp) j v hg, rfl⟩

/-- What follows a conditional batch: the removed keys, then the stored records group by
    group. -/
def followUps (writes : Dict K (ConditionalWrite V)) (ttl : Option TtlPolicy)
    (written : Finset K) : List (SyncOp K V) :=
  .batchDelete (Topology.removedKeys writes written) ::
    (Topology.byClock (Topology.storedPuts writes written) writes).map (groupOp ttl)

omit [DecidableEq V] in
/-- The follow-ups tell the index what the store did. -/
theorem left_followUps (writes : Dict K (ConditionalWrite V)) (ttl : Option TtlPolicy)
    {written : Finset K} (hw : ∀ k ∈ written, ∃ w, writes.get? k = some w) (values : K → Option V)
    (j : K) : (followUps writes ttl written).foldl left values j =
      if j ∈ written then (writes.get? j).bind fun w => w.change.value? else values j := by
  have hgroups := left_groups ttl (d := Topology.storedPuts writes written)
    (Topology.byClock (Topology.storedPuts writes written) writes)
    (fun g hg k v hk => (Topology.mem_byClock hg hk).1)
    (left values (.batchDelete (Topology.removedKeys writes written))) j
  show (List.map (groupOp ttl) _).foldl left _ j = _
  rcases hgroups with ⟨v, hv, h⟩ | ⟨hnone, h⟩
  · obtain ⟨hput, hin⟩ := Topology.get?_storedPuts.mp hv
    obtain ⟨w, hwj, hc⟩ := Topology.get?_putsOf.mp hput
    rw [h, if_pos hin, hwj, Option.bind_some, hc]
    rfl
  · rw [h]
    have hstored : (Topology.storedPuts writes written).get? j = none := by
      by_contra hne
      obtain ⟨v, hv⟩ := Option.ne_none_iff_exists'.mp hne
      obtain ⟨g, hg, -, hgv⟩ : ∃ g ∈ Topology.byClock (Topology.storedPuts writes written) writes,
          g.1 = Topology.clockOf writes j ∧ g.2.get? j = some v := Topology.exists_byClock hv
      rw [hnone g hg] at hgv
      cases hgv
    show (if j ∈ Topology.removedKeys writes written then none else values j) = _
    by_cases hin : j ∈ written
    · obtain ⟨w, hwj⟩ := hw j hin
      rw [if_pos hin, hwj, Option.bind_some]
      cases hc : w.change with
      | put v =>
        have hsome := Topology.get?_storedPuts.mpr ⟨Topology.get?_putsOf.mpr ⟨w, hwj, hc⟩, hin⟩
        rw [hstored] at hsome
        cases hsome
      | remove => exact if_pos (Topology.mem_removedKeys.mpr ⟨hin, w, hwj, hc⟩)
    · rw [if_neg hin, if_neg fun h => hin (Topology.mem_removedKeys.mp h).1]

omit [DecidableEq V] in
/-- The index takes every stored record for changed. -/
theorem changed_index (writes : Dict K (ConditionalWrite V)) (written : Finset K) :
    Topology.changed (indexTarget label termsOf policy : AnyTarget (Media K α VB) K V P)
      (Topology.storedPuts writes written) writes = Topology.storedPuts writes written := by
  refine Dict.filter_eq_self fun k v h => ?_
  obtain ⟨w, hw, -⟩ := Topology.get?_putsOf.mp (Topology.get?_storedPuts.mp h).1
  have hchanges : Topology.changes
      (indexTarget label termsOf policy : AnyTarget (Media K α VB) K V P) w.seen v = true := by
    unfold Topology.changes
    cases w.seen.value with
    | none => rfl
    | some before => exact Bool.or_true _
  rw [hw, Option.map_some, hchanges]
  rfl

/-- Each group is synced in turn. -/
theorem groups_tracks (ttl : Option TtlPolicy) (gs : List (Option Instant × Dict K V))
    {n₀ n : Node (Media K α VB) K V P} (h : Owes b termsOf (gs.map (groupOp ttl)) n₀ n) :
    ∃ n', (forM gs fun g => (topology b label termsOf policy).syncOne
      (indexTarget label termsOf policy) "batch set" (groupOp ttl g) none : M (Node _ K V P) PUnit) n
        = (.ok ⟨⟩, n') ∧ Tracks b termsOf n₀ n' := by
  induction gs generalizing n with
  | nil => exact ⟨n, rfl, h⟩
  | cons g gs ih =>
    have hop : Passed (groupOp ttl g) := trivial
    obtain ⟨n', hs, hb⟩ := syncOne_owes b label termsOf policy hop h "batch set" none
    obtain ⟨n'', hs', hb'⟩ := ih hb
    exact ⟨n'', by rw [List.forM_cons, bind_ok hs, hs'], hb'⟩

theorem afterConditional_tracks (writes : Dict K (ConditionalWrite V)) (o : WriteOptions)
    (written : Finset K) {n₀ n : Node (Media K α VB) K V P}
    (h : Owes b termsOf (followUps writes o.ttl written) n₀ n) :
    Tracks b termsOf n₀ ((topology b label termsOf policy).afterConditional writes o written n).2 := by
  have hremoved : ∃ n', (when (Topology.removedKeys writes written ≠ []) do
      forM (topology b label termsOf policy : Topology _ K V P).removedAfterCommit fun t =>
        (topology b label termsOf policy).syncOne t "batch delete"
          (.batchDelete (Topology.removedKeys writes written)) none : M (Node _ K V P) Unit) n =
        (.ok (), n') ∧ Owes b termsOf ((Topology.byClock (Topology.storedPuts writes written)
          writes).map (groupOp o.ttl)) n₀ n' := by
    unfold when
    split
    · rw [removedAfterCommit_eq, forM_single]
      exact syncOne_owes b label termsOf policy (by trivial) h _ none
    · next hnil =>
      obtain ⟨told, hposted, hleft⟩ := h
      unfold followUps at hleft
      rw [not_not.mp hnil, List.foldl_append] at hleft
      exact ⟨n, rfl, told, hposted, by rw [List.foldl_append]; exact hleft⟩
  obtain ⟨n', hrun, hb⟩ := hremoved
  unfold Topology.afterConditional
  rw [bind_ok hrun, dependents_eq, forM_single]
  unfold Topology.syncChanged
  rw [changed_index]
  obtain ⟨n'', hs, hb'⟩ := groups_tracks b label termsOf policy o.ttl _ hb
  have hs' := hs
  unfold groupOp at hs'
  rw [hs']
  exact hb'

/-- A conditional batch goes to the store, unseen. -/
theorem authority_conditional (writes : Dict K (ConditionalWrite V)) (o : WriteOptions) :
    (authorityTarget b : AnyTarget (Media K α VB) K V P).batchWriteIfUnchanged
      (Topology.received (authorityTarget b : AnyTarget (Media K α VB) K V P) writes) o =
      Lens.first.zoom (eachConditional (b.writeIfUnchanged o.ttl) (unseen writes)) := by
  have h := whole_conditional (P := V) ⟨"store", .authority, none, false, .required⟩
    (b.store.zoom (Lens.first : Lens (Media K α VB) _)).toKeyMap id
    [(b.store.zoom (Lens.first : Lens (Media K α VB) _)).toSyncNode] writes o
  exact h

theorem conditional_tracks (writes : Dict K (ConditionalWrite V)) (o : WriteOptions) :
    Moves (Tracks b termsOf)
      ((topology b label termsOf policy : Topology _ K V P).batchWriteIfUnchanged writes o) := by
  intro n
  have hcommit : Does (Lens.first.zoom (eachConditional (b.writeIfUnchanged o.ttl) (unseen writes)))
      n.media fun written s => Owes b termsOf (followUps writes o.ttl written) n ⟨s, n.syncs⟩ := by
    rcases b.conditional_value o.ttl (unseen writes) n.media.1 with ⟨written, hw, hkeys, hval⟩ | ⟨e, he⟩
    · refine .inl ⟨written, _, Lens.first_zoom (Prod.ext hw rfl), [], rfl, ?_⟩
      have hkeys' : ∀ k ∈ written, ∃ w, writes.get? k = some w := by
        intro k hk
        obtain ⟨w, hwk⟩ := hkeys k hk
        rw [get?_unseen] at hwk
        obtain ⟨w', hw', -⟩ := Option.map_eq_some_iff.mp hwk
        exact ⟨w', hw'⟩
      funext j
      refine (hval j).trans ?_
      rw [List.nil_append, left_followUps writes o.ttl hkeys', get?_unseen]
      cases writes.get? j <;> rfl
    · exact .inr ⟨e, Lens.first_zoom he⟩
  unfold Topology.batchWriteIfUnchanged Topology.requireAuthority
  rw [authority_eq]
  simp only [pure_bind]
  split
  · exact Std.Refl.refl n
  · have hnone : (topology b label termsOf policy : Topology (Media K α VB) K V P).components = [] := rfl
    rw [hnone, List.forM_nil, pure_bind, authority_conditional]
    refine (Node.onMedia_does (does_runCommitting hcommit _ _)).after_bind (p := Tracks b termsOf n) (Std.Refl.refl n)
      fun written n' hb => ?_
    have hafter := afterConditional_tracks b label termsOf policy writes o written hb
    rcases hrun : (topology b label termsOf policy).afterConditional writes o written n' with ⟨e | u, n''⟩
    · rw [bind_error hrun]
      rw [hrun] at hafter
      exact hafter
    · rw [bind_ok hrun]
      rw [hrun] at hafter
      exact hafter

/-! ## Runs -/

/-- One step of a run: an operation of the store, or time passing. -/
inductive Op (K V : Type) where
  | set (key : K) (value : V) (options : WriteOptions)
  | batchSet (items : Dict K V) (options : WriteOptions)
  | delete (key : K)
  | batchDelete (keys : List K)
  | setIfAbsent (key : K) (value : V) (options : WriteOptions)
  | update (key : K) (decide : Option V → Decision V) (options : WriteOptions) (attempts : Int)
  | batchUpdate (keys : List K) (decide : Dict K (Option V) → Dict K (Decision V))
      (options : WriteOptions) (attempts : Int)
  | wait (microseconds : Int)

/-- The node after the step, whatever it returned or raised. -/
def Op.after (op : Op K V) (n : Node (Media K α VB) K V P) : Node (Media K α VB) K V P :=
  let s : KvStore (Node (Media K α VB) K V P) K V := store b label termsOf policy
  match op with
  | set key value options => (s.set key value options n).2
  | batchSet items options => (s.batchSet items options n).2
  | delete key => (s.delete key n).2
  | batchDelete keys => (s.batchDelete keys n).2
  | setIfAbsent key value options => (s.toKeyMap.setIfAbsent key value options n).2
  | update key decide options attempts => (s.toKeyMap.update key decide options attempts n).2
  | batchUpdate keys decide options attempts =>
    (s.toKeyMap.batchUpdate keys decide options attempts n).2
  | wait microseconds => { n with media := (n.media.1.advance microseconds, n.media.2) }

def run (ops : List (Op K V)) (n : Node (Media K α VB) K V P) : Node (Media K α VB) K V P :=
  ops.foldl (fun n op => op.after b label termsOf policy n) n

theorem admits_tracks (o : WriteOptions) :
    Moves (Tracks (P := P) b termsOf)
      ((topology b label termsOf policy : Topology _ K V P).admitWrite "IndexedKvStore" o) := by
  unfold Topology.admitWrite requireWriteClockSupported
  split
  · exact Moves.raise _
  · exact Moves.pure _

theorem store_conditional_tracks (writes : Dict K (ConditionalWrite V)) (ttl : Option TtlPolicy) :
    Moves (Tracks b termsOf)
      ((store b label termsOf policy : KvStore (Node _ K V P) K V).batchWriteIfUnchanged
        writes ttl) := by
  refine Moves.bind (Moves.forM fun e _ => admits_tracks b label termsOf policy _) fun _ => ?_
  split
  · exact Moves.pure _
  · exact conditional_tracks b label termsOf policy _ _

/-- The store itself, as the whole authority. -/
theorem wholeAuthority_eq : (topology b label termsOf policy : Topology _ K V P).wholeAuthority =
    some (storeTarget ⟨"store", .authority, none, false, .required⟩
      (b.store.zoom Lens.first) some id) := rfl

/-- A read against versions changes nothing. -/
theorem readVersioned_same (keys : List K) :
    Moves Same
      ((store b label termsOf policy : KvStore (Node _ K V P) K V).batchReadVersioned keys) := by
  have hread : Moves Same (b.batchReadVersioned (Dict.unique keys)) := fun r =>
    (foldlM_set_readOnly (fun k r => (b.readVersioned_spec k r).1) _ Dict.empty r).1
  have hsame : Moves Same
      ((topology b label termsOf policy : Topology _ K V P).batchReadVersioned keys) := by
    unfold Topology.batchReadVersioned Topology.requireWhole
    rw [if_neg (by simp [Topology.assembled, topology]), wholeAuthority_eq]
    simp only [pure_bind]
    refine Moves.bind (Moves.map (Lens.zoom_same hread)) fun seen => Moves.bind ?_ fun _ => Moves.pure _
    exact Moves.pure _
  intro n
  show (⟨((topology b label termsOf policy : Topology _ K V P).batchReadVersioned keys n.media).2,
    n.syncs⟩ : Node _ K V P) = n
  rw [hsame n.media]

/-- An operation moves a node as the writes of the store do, and time. -/
theorem op_moves {R : Node (Media K α VB) K V P → Node (Media K α VB) K V P → Prop} [Std.Refl R]
    [IsTrans _ R]
    (hset : ∀ k v o, Moves R ((store b label termsOf policy : KvStore (Node _ K V P) K V).set k v o))
    (hbatchSet : ∀ items o, Moves R ((store b label termsOf policy).batchSet items o))
    (hdelete : ∀ k, Moves R ((store b label termsOf policy).delete k))
    (hbatchDelete : ∀ ks, Moves R ((store b label termsOf policy).batchDelete ks))
    (hwrite : ∀ ws ttl, Moves R ((store b label termsOf policy).batchWriteIfUnchanged ws ttl))
    (hwait : ∀ n d, R n { n with media := (n.media.1.advance d, n.media.2) })
    (op : Op K V) (n : Node (Media K α VB) K V P) : R n (op.after b label termsOf policy n) := by
  have hread : ∀ ks, Moves R
      ((store b label termsOf policy : KvStore (Node _ K V P) K V).batchReadVersioned ks) :=
    fun ks => (readVersioned_same b label termsOf policy ks).weaken fun s s' h => by
      rw [h]
      exact Std.Refl.refl s
  have hupdate := fun keys decide options attempts =>
    KeyMap.moves_batchUpdate _ hread hwrite keys decide options attempts n
  cases op with
  | set key value o => exact hset key value o n
  | batchSet items o => exact hbatchSet items o n
  | delete key => exact hdelete key n
  | batchDelete keys => exact hbatchDelete keys n
  | setIfAbsent key value o =>
    exact (Moves.bind (hwrite _ _) fun _ => Moves.pure _) n
  | update key decide o attempts =>
    exact (Moves.bind (KeyMap.moves_batchUpdate _ hread hwrite [key] _ o attempts) fun _ =>
      Moves.pure _) n
  | batchUpdate keys decide o attempts => exact hupdate keys decide o attempts
  | wait microseconds => exact hwait n microseconds

theorem op_tracks (op : Op K V) (n : Node (Media K α VB) K V P) :
    Tracks b termsOf n (op.after b label termsOf policy n) := by
  refine op_moves (R := Tracks b termsOf) b label termsOf policy (fun key value o => ?_) (fun items o => ?_)
    (remove_tracks b label termsOf policy) (batchRemove_tracks b label termsOf policy)
    (store_conditional_tracks b label termsOf policy) (fun n d => ⟨[], rfl, rfl⟩) op n
  · exact Moves.bind (admits_tracks b label termsOf policy o) fun _ =>
      write_tracks b label termsOf policy key value o
  · exact Moves.bind (admits_tracks b label termsOf policy o) fun _ =>
      batchWrite_tracks b label termsOf policy items o

theorem run_inStep (ops : List (Op K V)) {n : Node (Media K α VB) K V P}
    (hn : InStep b termsOf n) : InStep b termsOf (run b label termsOf policy ops n) := by
  induction ops generalizing n with
  | nil => exact hn
  | cons op ops ih => exact ih ((op_tracks b label termsOf policy op n).stays b termsOf hn)

/-! ## What a search hits -/

/-- A read of the composition is a read of the store. -/
theorem get_eq (key : K) (n : Node (Media K α VB) K V P) :
    ((store b label termsOf policy : KvStore (Node _ K V P) K V).get key n).1 =
      (b.get key n.media.1).1 := by
  have hlookups : (topology b label termsOf policy : Topology _ K V P).lookups =
      [storeTarget ⟨"store", .authority, none, false, .required⟩ (b.store.zoom Lens.first) some id] :=
    rfl
  show (Node.onMedia ((topology b label termsOf policy).read key) n).1 = _
  unfold Topology.read
  rw [if_neg (by simp [Topology.assembled, topology]), hlookups, Node.onMedia_apply]
  have hread : (Option.map id <$> Lens.first.zoom (b.get key) : M (Media K α VB) (Option V)) n.media =
      ((b.get key n.media.1).1, ((b.get key n.media.1).2, n.media.2)) := by
    rw [Option.map_id, id_map]
    rfl
  unfold Topology.readFrom
  show ((Option.map id <$> Lens.first.zoom (b.get key) >>= _ : M (Media K α VB) _) n.media).1 = _
  rcases hget : (b.get key n.media.1).1 with e | v <;> rw [hget] at hread
  · rw [bind_error hread]
  · rw [bind_ok hread]
    cases v <;> rfl

omit [DecidableEq K] [DecidableEq V] in
/-- Where nothing has expired, a read returns what is stored. -/
theorem get_value {r : MemoryRoot α VB}
    (hlive : ∀ k e, b.entry r k = some e → MemoryKvBackend.expired e r.clock = false) (k : K) (v : V) :
    (b.get k r).1 = .ok (some v) ↔ b.value r k = some v := by
  have hl := hlive k
  unfold MemoryKvBackend.value
  unfold MemoryKvBackend.get MemoryKvBackend.liveEntry
  cases hp : b.physicalKeyBlob k with
  | error e =>
    have hnone : b.entry r k = none := by
      unfold MemoryKvBackend.entry
      rw [hp]
    rw [b.physicalKey_error hp, raise_bind, raise_bind, hnone]
    simp
  | ok p =>
    rw [b.physicalKey_ok hp, pure_bind, bind_assoc, bind_apply, read_apply]
    rw [b.entry_eq hp] at hl ⊢
    simp only
    cases he : b.entryAt r p with
    | none => simp
    | some e =>
      simp only [hl e he, Bool.false_eq_true, if_false, pure_bind, Option.bind_some]
      unfold MemoryKvBackend.deserializeValue
      cases b.kvset.valueSerde.deserialize e.valueBlob with
      | none => simp [bind_apply]
      | some w => simp

/-- A memory store and its index, with nothing in either. -/
def fresh (clock : Instant) : Node (Media K α VB) K V P :=
  ⟨(MemoryRoot.empty clock, TermPostings.empty), []⟩

omit [DecidableEq V] in
theorem fresh_inStep (clock : Instant) : InStep (P := P) b termsOf (fresh clock) := by
  refine ⟨TermPostings.coherent_empty, fun k => ?_⟩
  have hnone : b.value (MemoryRoot.empty clock) k = none := by
    unfold MemoryKvBackend.value MemoryKvBackend.entry
    cases b.physicalKeyBlob k <;> rfl
  show [] = (b.value (MemoryRoot.empty clock) k).elim _ _
  rw [hnone]
  rfl

/-- In every state a run reaches with nothing stored expired: the two maps of the index
    say the same, no empty bucket is left in either, and a term is filed over exactly the
    keys whose value, as a read returns it, yields the term. A search answers as many of
    these as it was asked for. -/
theorem search_correct (clock : Instant) (ops : List (Op K V))
    (hlive : ∀ k e, b.entry (run (P := P) b label termsOf policy ops (fresh clock)).media.1 k = some e →
      MemoryKvBackend.expired e
        (run (P := P) b label termsOf policy ops (fresh clock)).media.1.clock = false) :
    let n : Node (Media K α VB) K V P := run b label termsOf policy ops (fresh clock)
    (∀ k t, k ∈ n.media.2.keys t ↔ t ∈ n.media.2.terms k) ∧
    n.media.2.termToKeys.Filled ∧ n.media.2.keyToTerms.Filled ∧
    (∀ k t, k ∈ n.media.2.keys t ↔
      ∃ v, ((store b label termsOf policy).get k n).1 = .ok (some v) ∧ t ∈ termsOf k v) ∧
    ∀ t limit, (n.media.2.search t limit).Sublist (n.media.2.keys t) ∧
      (n.media.2.search t limit).length = min limit.toNat (n.media.2.keys t).length := by
  intro n
  have hn : InStep b termsOf n := run_inStep b label termsOf policy ops (fresh_inStep b termsOf clock)
  refine ⟨hn.coherent.agree, hn.coherent.filled, hn.coherent.named, fun k t => ?_, fun t limit => ?_⟩
  · have hfiled : n.media.2.terms k =
        (b.value n.media.1 k).elim [] fun v => Dict.unique (termsOf k v) := hn.filed k
    rw [hn.coherent.agree k t, hfiled]
    have hget : ∀ v, ((store b label termsOf policy).get k n).1 = .ok (some v) ↔
        b.value n.media.1 k = some v := by
      intro v
      rw [get_eq]
      exact get_value b hlive k v
    cases hv : b.value n.media.1 k with
    | none =>
      refine ⟨fun h => absurd h List.not_mem_nil, fun ⟨v, hv', _⟩ => ?_⟩
      rw [hget v, hv] at hv'
      cases hv'
    | some v =>
      show t ∈ Dict.unique (termsOf k v) ↔ _
      rw [Dict.mem_unique]
      refine ⟨fun h => ⟨v, (hget v).mpr hv, h⟩, fun ⟨w, hw, ht⟩ => ?_⟩
      rw [hget w, hv] at hw
      rw [Option.some.inj hw]
      exact ht
  · unfold TermPostings.search
    split
    · next hle =>
      refine ⟨List.nil_sublist _, ?_⟩
      rw [Int.toNat_of_nonpos hle, Nat.zero_min]
      rfl
    · exact ⟨List.take_sublist _ _, List.length_take⟩

/-- One record stored, and some time later. -/
theorem search_correct_stored :
    let b := MemoryKvBackend.plain String
    let n : Node (Media (List Char) Char String) (List Char) String Empty :=
      run b "words" (fun _ v => [v]) .required [.set ['a'] "x" .none, .wait 5] (fresh 0)
    ∀ k t, k ∈ n.media.2.keys t ↔
      ∃ v, ((store b "words" (fun _ v => [v]) .required).get k n).1 = .ok (some v) ∧ t ∈ [v] := by
  have hmedia : (run (P := Empty) (MemoryKvBackend.plain String) "words" (fun _ v => [v]) .required
      [.set ['a'] "x" .none, .wait 5] (fresh 0)).media.1 =
      ((MemoryRoot.empty 0).put "items:v1" ['a'] "x" none 0).advance 5 := rfl
  refine (search_correct (P := Empty) (MemoryKvBackend.plain String) "words" (fun _ v => [v])
    .required 0 [.set ['a'] "x" .none, .wait 5] fun k e he => ?_).2.2.2.1
  rw [hmedia] at he ⊢
  have hput := (MemoryKvBackend.plain String).entry_put (k := ['a']) rfl (MemoryRoot.empty 0) "x"
    none 0 k
  by_cases hk : k = ['a']
  · have hsome : e = ⟨0, "x", none, 0, 0⟩ := Option.some.inj (he.symm.trans (hput.1 hk))
    rw [hsome]
    rfl
  · have hnone := he.symm.trans (hput.2 hk)
    cases hnone

end IndexedSearch

end Kvtsjl
