import Kvtsjl.Kinds
import Kvtsjl.OpSteps

/-
  What an operation does, by the keys it names.
  `Target.About p R` says that a target asked about keys in `p` moves along `R`. `topology_about` and `zip_about`
  say that the operations of a node about such keys then do: what they pass on names no key that they do not name
  themselves.
-/

namespace Kvtsjl

open Assoc (Dict)
open Effects Prog

/-! ## The keys an operation names -/

section Names

variable {K V T : Type}

def RecordOp.keys : RecordOp K V → List K
  | .set key _ _ => [key]
  | .batchSet items _ => items.keys
  | .writeIfUnchanged writes _ => writes.keys
  | .delete key => [key]
  | .batchDelete keys => keys
  | .unset key => [key]
  | .batchUnset keys => keys

def SyncOp.keys : SyncOp K V → List K
  | .write key _ _ => [key]
  | .batchWrite items _ => items.keys
  | .delete key => [key]
  | .unset key => [key]
  | .batchDelete keys => keys
  | .batchUnset keys => keys

variable [DecidableEq K] {k : K}

theorem mem_keys_collect {f : K → V → Option T} {d : Dict K V} (h : k ∈ (d.collect f).keys) : k ∈ d.keys := by
  obtain ⟨v, hv⟩ := Dict.mem_keys.mp h
  rw [Dict.get?_collect] at hv
  obtain ⟨w, hw, -⟩ := Option.bind_eq_some_iff.mp hv
  exact Dict.mem_keys.mpr ⟨w, hw⟩

/-- A batch filed under its write clocks names the keys of the values it was made of. -/
theorem mem_keys_byClock {values : Dict K V} {writes : Dict K (ConditionalWrite V)} {g : Option Instant × Dict K V}
    (hg : g ∈ Topology.byClock values writes) (h : k ∈ g.2.keys) : k ∈ values.keys := by
  obtain ⟨v, hv⟩ := Dict.mem_keys.mp h
  exact Dict.mem_keys.mpr ⟨v, (Topology.mem_byClock hg hv).1⟩

end Names

/-! ## Targets -/

section Targets

variable {S K V P T : Type} {R : S → S → Prop} {p : K → Prop}

theorem moves_of_discard {σ α : Type} {R : σ → σ → Prop} {m : M σ α} (h : Moves R (Functor.discard m)) :
    Moves R m := by
  intro s
  have hs := h s
  rw [discard_apply] at hs
  exact hs

/-- Whatever the store is asked to change of keys in `p`, it moves along `R`. -/
structure KvStore.About (p : K → Prop) (R : S → S → Prop) (s : KvStore S K V) : Prop where
  op : ∀ op : RecordOp K V, (∀ k ∈ op.keys, p k) → Moves R (op.run s)
  probe : ∀ ks, Moves R (s.batchExists ks)

/-- Whatever the target is asked to change of keys in `p`, it moves along `R`. -/
structure Target.About (p : K → Prop) (R : S → S → Prop) (t : Target S K V P) : Prop where
  on : ∀ op : SyncOp K V, (∀ k ∈ op.keys, p k) → Moves R (op.on t)
  conditional : ∀ ws o, (∀ k ∈ ws.keys, p k) → Moves R (t.batchWriteIfUnchanged ws o)
  probe : ∀ ks, Moves R (t.batchExists ks)

variable [DecidableEq K]

theorem Target.About.upcast {Q : Type} {t : Target S K V P} (h : t.About p R) (f : P → Q) :
    (t.upcast f).About p R where
  on op hp := by
    have hon := h.on op hp
    cases op <;> exact hon
  conditional := h.conditional
  probe := h.probe

variable [DecidableEq T] [Std.Refl R] [IsTrans S R]

/-- A target that is a store asks its store about no other keys. -/
theorem storeTarget_about {s : KvStore S K T} (h : s.About p R) (d : Declared) (slot : V → Option T) (up : T → P) :
    (storeTarget d s slot up : Target S K V P).About p R where
  on op hp := by
    cases op with
    | write key value options =>
      unfold SyncOp.on storeTarget keyMapTarget
      simp only
      split
      · exact h.op (.unset key) hp
      · exact h.op (.set key _ _) hp
    | batchWrite items options =>
      refine Moves.bind (Moves.when ?_) fun _ => Moves.when ?_
      · exact h.op (.batchSet _ _) fun k hk => hp k (mem_keys_collect hk)
      · exact h.op (.batchUnset _) fun k hk => hp k (mem_keys_collect hk)
    | delete key => exact h.op (.delete key) hp
    | unset key => exact h.op (.unset key) hp
    | batchDelete keys => exact h.op (.batchDelete keys) hp
    | batchUnset keys => exact h.op (.batchUnset keys) hp
  conditional ws o hp := by
    unfold storeTarget keyMapTarget
    simp only
    split
    · exact Moves.raise _
    · exact moves_of_discard (h.op (.writeIfUnchanged _ _) fun k hk => hp k (mem_keys_collect hk))
  probe := h.probe

theorem Shape.target_about (d : Declared) :
    ∀ {T : Type} [DecidableEq T] (sh : Shape V P T) {s : KvStore S K T}, s.About p R → (sh.target d s).About p R
  | _, _, .whole, _, h => (storeTarget_about h d some id).upcast Sum.inl
  | _, _, .piece slot up, _, h => (storeTarget_about h d slot up).upcast Sum.inr

end Targets

/-! ## Nodes -/

section Nodes

variable {S K V P : Type} [DecidableEq K] {T : Topology S K V P} {R : S → S → Prop} {p : K → Prop}

/-- The media of a node move along `R`. -/
def OfMedia (R : S → S → Prop) (n n' : Node S K V P) : Prop := R n.media n'.media

instance ofMedia_refl [Std.Refl R] : Std.Refl (OfMedia R : Node S K V P → Node S K V P → Prop) :=
  ⟨fun n => Std.Refl.refl n.media⟩

instance ofMedia_trans [IsTrans S R] : IsTrans (Node S K V P) (OfMedia R) :=
  ⟨fun _ _ _ hab hbc => IsTrans.trans (r := R) _ _ _ hab hbc⟩

omit [DecidableEq K] in
theorem ofMedia_onMedia {α : Type} {m : M S α} (hm : Moves R m) :
    Moves (OfMedia R) (Node.onMedia m : M (Node S K V P) α) := fun n => hm n.media

theorem mem_committing {t : AnyTarget S K V P} (ht : t ∈ T.committing) : t ∈ T.all := by
  obtain ⟨r, -, ht⟩ := List.mem_flatMap.mp ht
  exact List.mem_of_mem_filter ht

theorem mem_removedNow {t : AnyTarget S K V P} (ht : t ∈ T.removedNow) : t ∈ T.all := by
  unfold Topology.removedNow at ht
  split at ht
  · next a ha =>
    rw [List.mem_singleton.mp ht]
    exact List.mem_of_find?_eq_some ha
  · exact Writers.components_all ht

/-- Whatever becomes of an operation after the commit point, now or later, the media move as it moves them. -/
theorem moves_syncOne [Std.Refl R] {t : AnyTarget S K V P} {op : SyncOp K V} (h : Moves R (op.on t)) (what : String)
    (policy : Option SyncPolicy) : Moves (OfMedia R) (T.syncOne t what op policy) := by
  unfold Topology.syncOne Topology.runSync
  split
  · exact fun n => Std.Refl.refl (r := R) n.media
  · exact ofMedia_onMedia (moves_settle h _ _ _ _ _)

variable [Std.Refl R] [IsTrans S R] (h : ∀ t ∈ T.all, t.About p R)

include h

omit [IsTrans S R] in
theorem syncOne_about {t : AnyTarget S K V P} (ht : t ∈ T.all) {what : String} (op : SyncOp K V)
    {policy : Option SyncPolicy} (hp : ∀ k ∈ op.keys, p k) : Moves (OfMedia R) (T.syncOne t what op policy) :=
  moves_syncOne ((h t ht).on op hp) what policy

omit [Std.Refl R] [IsTrans S R] in
theorem commit_about {t : AnyTarget S K V P} (ht : t ∈ T.all) (op : SyncOp K V) (hp : ∀ k ∈ op.keys, p k) :
    Moves (OfMedia R) (Node.onMedia (runCommitting t.name t.role (op.on t)) : M (Node S K V P) Unit) :=
  ofMedia_onMedia (moves_runCommitting ((h t ht).on op hp) _ _)

theorem write_about (key : K) (value : V) (options : WriteOptions) (hp : p key) :
    Moves (OfMedia R) (T.write key value options) := by
  have hkeys : ∀ k ∈ (SyncOp.write key value options).keys, p k := fun k hk => List.mem_singleton.mp hk ▸ hp
  refine Moves.bind (Moves.forM fun t ht => ?_) fun _ => Moves.forM fun t ht => ?_
  · exact commit_about h (mem_committing ht) _ hkeys
  · exact syncOne_about h (OpSteps.mem_dependents.mp ht).1 _ hkeys

theorem batchWrite_about (items : Dict K V) (options : WriteOptions) (hp : ∀ k ∈ items.keys, p k) :
    Moves (OfMedia R) (T.batchWrite items options) := by
  refine Moves.when (Moves.bind (Moves.forM fun t ht => ?_) fun _ => Moves.forM fun t ht => ?_)
  · exact commit_about h (mem_committing ht) (.batchWrite items options) hp
  · exact syncOne_about h (OpSteps.mem_dependents.mp ht).1 (.batchWrite items options) hp

/-- What a conditional batch passes on names keys of the batch. -/
theorem conditional_about (writes : Dict K (ConditionalWrite V)) (options : WriteOptions)
    (hp : ∀ k ∈ writes.keys, p k) : Moves (OfMedia R) (T.batchWriteIfUnchanged writes options) := by
  unfold Topology.batchWriteIfUnchanged Topology.requireAuthority
  cases ha : T.authority with
  | none =>
    simp only [raise_bind]
    exact Moves.raise _
  | some authority =>
    simp only [pure_bind]
    have hmem : authority ∈ T.all := List.mem_of_find?_eq_some ha
    split
    · exact Moves.raise _
    refine Moves.bind (Moves.forM fun t ht => Moves.forM fun g hg => ?_) fun _ => ?_
    · refine commit_about h (Writers.components_all ht) (.batchWrite g.2 ⟨options.ttl, g.1⟩) fun k hk => hp k ?_
      exact mem_keys_collect (mem_keys_collect (mem_keys_byClock hg hk))
    have hreceived : ∀ k ∈ (Topology.received authority writes).keys, p k := by
      unfold Topology.received
      split
      · exact hp
      · rwa [Dict.keys_map]
    refine Moves.bind (ofMedia_onMedia (moves_runCommitting ((h _ hmem).conditional _ _ hreceived) _ _)) fun written =>
      Moves.bind (Moves.bind (Moves.when (Moves.forM fun t ht => ?_)) fun _ =>
        Moves.forM fun t ht => Moves.forM fun g hg => ?_) fun _ => Moves.pure _
    · refine syncOne_about h (OpSteps.mem_removedAfterCommit ht).1 _ fun k hk => hp k ?_
      obtain ⟨-, w, hw, -⟩ := Topology.mem_removedKeys.mp hk
      exact Dict.mem_keys.mpr ⟨w, hw⟩
    · refine syncOne_about h (OpSteps.mem_dependents.mp ht).1 _ fun k hk => hp k ?_
      exact mem_keys_collect (mem_keys_collect (mem_keys_collect (mem_keys_byClock hg hk)))

theorem remove_about (r : Topology.Removal) (key : K) (hp : p key) : Moves (OfMedia R) (T.remove r key) := by
  have hkeys : ∀ k ∈ (r.pointOp key : SyncOp K V).keys, p k := by
    cases r <;> exact fun k hk => List.mem_singleton.mp hk ▸ hp
  refine Moves.bind (Moves.mapM fun t ht => ?_) fun _ => Moves.bind (Moves.forM fun t ht => ?_) fun _ => Moves.pure _
  · have hon := (h t (mem_removedNow ht)).on _ hkeys
    cases r <;> exact ofMedia_onMedia (moves_of_discard hon)
  · exact syncOne_about h (OpSteps.mem_removedAfterCommit ht).1 _ hkeys

theorem heldBefore_about (keys : List K) :
    Moves (OfMedia R) (Node.onMedia (T.heldBefore keys) : M (Node S K V P) (Finset K)) := by
  refine ofMedia_onMedia ?_
  unfold Topology.heldBefore
  split
  · exact Moves.foldlM (fun held t ht => ((h t (Writers.components_all ht)).probe keys).map) _
  · exact Moves.pure _

theorem batchRemove_about (r : Topology.Removal) (keys : List K) (policy : Option SyncPolicy) (hp : ∀ k ∈ keys, p k) :
    Moves (OfMedia R) (T.batchRemove r keys policy) := by
  have hkeys : ∀ k ∈ (r.batchOp (Dict.unique keys) : SyncOp K V).keys, p k := by
    cases r <;> exact fun k hk => hp k (Dict.mem_unique.mp hk)
  unfold Topology.batchRemove
  split
  · exact Moves.pure _
  refine Moves.bind (heldBefore_about h _) fun _ => Moves.bind (Moves.mapM fun t ht => ?_) fun _ =>
    Moves.bind (Moves.forM fun t ht => ?_) fun _ => Moves.pure _
  · have hon := (h t (mem_removedNow ht)).on _ hkeys
    cases r <;> exact ofMedia_onMedia (moves_of_discard hon)
  · exact syncOne_about h (OpSteps.mem_removedAfterCommit ht).1 _ hkeys

theorem topology_about (typeName : String) (op : RecordOp K V) (hp : ∀ k ∈ op.keys, p k) :
    Moves (OfMedia R) (op.run (T.store typeName)) := by
  have hclock : ∀ options, Moves (OfMedia R) (T.admitWrite typeName options : M (Node S K V P) Unit) := by
    intro options
    unfold Topology.admitWrite requireWriteClockSupported
    split
    · exact Moves.raise _
    · exact Moves.pure _
  cases op with
  | set key value options =>
    exact (hclock _).bind fun _ => write_about h key value options (hp key (List.mem_singleton_self key))
  | batchSet items options => exact (hclock _).bind fun _ => batchWrite_about h items options hp
  | writeIfUnchanged writes ttl =>
    refine moves_discard ((Moves.forM fun e _ => hclock _).bind fun _ => ?_)
    split
    · exact Moves.pure _
    · exact conditional_about h writes _ hp
  | delete key => exact moves_discard (remove_about h .delete key (hp key (List.mem_singleton_self key)))
  | batchDelete keys => exact moves_discard (batchRemove_about h .delete keys none hp)
  | unset key => exact moves_discard (remove_about h .unset key (hp key (List.mem_singleton_self key)))
  | batchUnset keys => exact moves_discard (batchRemove_about h .unset keys none hp)

theorem zip_about (z : Zip) (typeName : String) (op : RecordOp K V) (hp : ∀ k ∈ op.keys, p k) :
    Moves (OfMedia R) (op.run (z.store T typeName)) := by
  cases op with
  | writeIfUnchanged writes ttl =>
    show Moves (OfMedia R) (Functor.discard (if T.authority.isNone then _ else _))
    split
    · exact Moves.raise _
    · exact topology_about h typeName (.writeIfUnchanged writes ttl) hp
  | set key value options => exact topology_about h typeName (.set key value options) hp
  | batchSet items options => exact topology_about h typeName (.batchSet items options) hp
  | delete key => exact topology_about h typeName (.delete key) hp
  | batchDelete keys => exact topology_about h typeName (.batchDelete keys) hp
  | unset key => exact topology_about h typeName (.unset key) hp
  | batchUnset keys => exact topology_about h typeName (.batchUnset keys) hp

end Nodes

end Kvtsjl
