import Kvtsjl.Lib.Closed
import Kvtsjl.StoreTopology

/-
  The steps a store's operations are made of.
  An operation of a node is put together from what it asks its targets. So a kind of
  program that is closed under sequencing holds an operation where it holds these
  steps: `Readers` lists those of the reads, `Writers` those of what changes records.
-/

namespace Kvtsjl

open Assoc (Dict)
open Effects Prog

/-- An operation that changes records, as a caller asks for it. -/
inductive RecordOp (K V : Type) where
  | set (key : K) (value : V) (options : WriteOptions)
  | batchSet (items : Dict K V) (options : WriteOptions)
  | writeIfUnchanged (writes : Dict K (ConditionalWrite V)) (ttl : Option TtlPolicy)
  | delete (key : K)
  | batchDelete (keys : List K)
  | unset (key : K)
  | batchUnset (keys : List K)

def RecordOp.run {σ K V : Type} (s : KvStore σ K V) : RecordOp K V → M σ Unit
  | .set key value options => s.set key value options
  | .batchSet items options => s.batchSet items options
  | .writeIfUnchanged writes ttl => Functor.discard (s.batchWriteIfUnchanged writes ttl)
  | .delete key => Functor.discard (s.delete key)
  | .batchDelete keys => Functor.discard (s.batchDelete keys)
  | .unset key => Functor.discard (s.unset key)
  | .batchUnset keys => Functor.discard (s.batchUnset keys)

/-! ## Reads -/

section Readers

variable {S K V P R : Type}

/-- Every read of the target is of the kind. -/
structure Target.Reads (Q : ∀ {α : Type}, M S α → Prop) (t : Target S K V R) : Prop where
  read : ∀ k, Q (t.read k)
  batchRead : ∀ ks, Q (t.batchRead ks)
  existsKey : ∀ k, Q (t.existsKey k)
  batchExists : ∀ ks, Q (t.batchExists ks)
  stat : ∀ k, Q (t.stat k)
  batchStat : ∀ ks, Q (t.batchStat ks)

/-- What assembling a record is made of: the reads of its parts. -/
structure PartReaders [DecidableEq K] (T : Topology S K V P) (Q : ∀ {α : Type}, M S α → Prop) :
    Prop where
  closed : Closed Q
  reads : ∀ t ∈ T.all, t.Reads Q

/-- What the reads of a node are made of: its targets' reads, and the fills. -/
structure Readers [DecidableEq K] (T : Topology S K V P) (Q : ∀ {α : Type}, M S α → Prop) : Prop
    extends PartReaders T Q where
  whole : ∀ t ∈ T.targets, t.Reads Q
  fills : ∀ t ∈ T.targets, t.fill = true → ∀ ws o, Q (tryFill (t.batchWriteIfUnchanged ws o))

namespace PartReaders

variable [DecidableEq K] {T : Topology S K V P} {Q : ∀ {α : Type}, M S α → Prop}

theorem mem_unanchoredParts {p : AnyTarget S K V P × Nat} (hp : p ∈ T.unanchoredParts) :
    p.1 ∈ T.all := by
  have hmem := List.mem_of_mem_drop (List.mem_of_mem_filter hp)
  exact (List.mem_zipIdx' hmem).2 ▸ List.getElem_mem _

theorem mem_anchored {p : AnyTarget S K V P × Nat} (hp : T.anchored = some p) : p.1 ∈ T.all :=
  (List.mem_zipIdx' (List.mem_of_find?_eq_some hp)).2 ▸ List.getElem_mem _

theorem requireAssemble (h : PartReaders T Q) : Q (T.requireAssemble : M S _) := by
  unfold Topology.requireAssemble
  split
  · exact h.closed.pure _
  · exact h.closed.raise _

theorem readParts (h : PartReaders T Q) (key : K) : Q (T.readParts key) :=
  h.closed.mapM fun _ hp => h.closed.map ((h.reads _ (mem_unanchoredParts hp)).read key) _

theorem batchReadParts (h : PartReaders T Q) (wanted : List K) : Q (T.batchReadParts wanted) := by
  refine h.closed.mapM fun p hp => ?_
  split
  · exact h.closed.pure _
  · exact h.closed.map ((h.reads _ (mem_unanchoredParts hp)).batchRead wanted) _

theorem assembleOne (h : PartReaders T Q) (key : K) : Q (T.assembleOne key) := by
  refine h.closed.bind h.requireAssemble fun assemble => ?_
  split
  · exact h.closed.map (h.readParts key) _
  · next authority i ha =>
    refine h.closed.bind ((h.reads _ (mem_anchored ha)).read key) fun r => ?_
    split
    · exact h.closed.pure _
    · exact h.closed.map (h.readParts key) _

theorem assembleMany (h : PartReaders T Q) (keys : List K) (anchors : Option (Dict K (V ⊕ P))) :
    Q (T.assembleMany keys anchors) := by
  refine h.closed.bind h.requireAssemble fun assemble => ?_
  split
  · exact h.closed.pure _
  · split
    · exact h.closed.map (h.batchReadParts _) _
    · next authority i ha =>
      refine h.closed.bind ?_ fun hits => h.closed.map (h.batchReadParts _) _
      cases anchors with
      | none => exact (h.reads _ (mem_anchored ha)).batchRead _
      | some given => exact h.closed.pure _

end PartReaders

namespace Readers

variable [DecidableEq K] {T : Topology S K V P} {Q : ∀ {α : Type}, M S α → Prop}

omit [DecidableEq K] in
theorem mem_lookups {t : Target S K V V} (ht : t ∈ T.lookups) : t ∈ T.targets := by
  unfold Topology.lookups at ht
  rw [List.mem_append, List.mem_append] at ht
  rcases ht with (ht | ht) | ht
  · exact List.mem_of_mem_filter ht
  · exact List.mem_of_find?_eq_some (Option.mem_toList.mp ht)
  · exact List.mem_of_mem_filter ht

/-- The existence checks of a node: it assembles the records, or asks its targets. -/
theorem batchExists_of (hc : Closed Q)
    (hassembled : T.assembled = true → ∀ keys, Q (T.assembleMany keys none))
    (hwhole : T.assembled = false → ∀ t ∈ T.targets, ∀ ks, Q (t.batchExists ks)) (keys : List K) :
    Q (T.batchExists keys) := by
  unfold Topology.batchExists Topology.batchRead
  split
  · next ha => exact hc.map (hassembled ha keys) _
  · next ha =>
    refine hc.foldlM (fun found t ht => ?_) _
    simp only
    split
    · exact hc.pure _
    · exact hc.map (hwhole (Bool.not_eq_true _ ▸ ha) t (mem_lookups ht) _) _

theorem batchFill (h : Readers T Q) (hits : Dict K V) {source : Target S K V V}
    {consulted : List (Target S K V V)} (hs : source ∈ T.targets) (hc : ∀ t ∈ consulted, t ∈ T.targets) :
    Q (Topology.batchFill hits source consulted) := by
  refine h.closed.when (h.closed.bind ?_ fun stats => h.closed.forM fun t ht => ?_)
  · unfold Topology.fillStats
    split
    · exact (h.whole source hs).batchStat _
    · exact h.closed.pure _
  · obtain ⟨hmem, hfill⟩ := List.mem_filter.mp ht
    rw [Bool.and_eq_true] at hfill
    exact h.fills t (hc t hmem) hfill.1 _ _

theorem readFrom (h : Readers T Q) (key : K) (ts : List (Target S K V V)) :
    ∀ consulted, (∀ t ∈ consulted ++ ts, t ∈ T.targets) → Q (Topology.readFrom key ts consulted) := by
  induction ts with
  | nil => exact fun consulted _ => h.closed.pure _
  | cons t rest ih =>
    intro consulted hmem
    have ht : t ∈ T.targets := hmem t (by simp)
    rw [Topology.readFrom]
    refine h.closed.bind ((h.whole t ht).read key) fun r => ?_
    cases r with
    | none => exact ih (consulted ++ [t]) fun u hu => hmem u (by simpa using hu)
    | some value =>
      refine h.closed.bind (h.batchFill _ ht fun u hu => hmem u (by simp [hu])) fun _ => ?_
      exact h.closed.pure _

theorem batchReadFrom (h : Readers T Q) (keys : List K) (ts : List (Target S K V V)) :
    ∀ consulted found, (∀ t ∈ consulted ++ ts, t ∈ T.targets) →
      Q (Topology.batchReadFrom keys ts consulted found) := by
  induction ts with
  | nil => exact fun consulted found _ => h.closed.pure _
  | cons t rest ih =>
    intro consulted found hmem
    have ht : t ∈ T.targets := hmem t (by simp)
    rw [Topology.batchReadFrom]
    split
    · exact h.closed.pure _
    · refine h.closed.bind ((h.whole t ht).batchRead _) fun hits => ?_
      refine h.closed.bind (h.closed.when (h.batchFill _ ht fun u hu => hmem u (by simp [hu]))) fun _ => ?_
      exact ih _ _ fun u hu => hmem u (by simpa using hu)

theorem read (h : Readers T Q) (key : K) : Q (T.read key) := by
  unfold Topology.read
  split
  · exact h.assembleOne key
  · exact h.readFrom key _ [] fun t ht => mem_lookups (by simpa using ht)

theorem batchRead (h : Readers T Q) (keys : List K) : Q (T.batchRead keys) := by
  unfold Topology.batchRead
  split
  · exact h.assembleMany keys none
  · exact h.batchReadFrom keys _ [] _ fun t ht => mem_lookups (by simpa using ht)

theorem existsKey (h : Readers T Q) (key : K) : Q (T.existsKey key) := by
  have hfrom : ∀ ts : List (Target S K V V), (∀ t ∈ ts, t ∈ T.targets) →
      Q (Topology.existsFrom key ts) := by
    intro ts
    induction ts with
    | nil => exact fun _ => h.closed.pure _
    | cons t rest ih =>
      intro hmem
      rw [Topology.existsFrom]
      refine h.closed.bind ((h.whole t (hmem t (by simp))).existsKey key) fun b => ?_
      split
      · exact h.closed.pure _
      · exact ih fun u hu => hmem u (List.mem_cons_of_mem _ hu)
  unfold Topology.existsKey
  split
  · exact h.closed.map (h.read key) _
  · exact hfrom _ fun t ht => mem_lookups ht

theorem batchExists (h : Readers T Q) (keys : List K) : Q (T.batchExists keys) :=
  batchExists_of h.closed (fun _ keys => h.assembleMany keys none)
    (fun _ t ht ks => (h.whole t ht).batchExists ks) keys

theorem stat (h : Readers T Q) (key : K) : Q (T.stat key) := by
  have hfrom : ∀ ts : List (Target S K V V), (∀ t ∈ ts, t ∈ T.targets) →
      Q (Topology.statFrom key ts) := by
    intro ts
    induction ts with
    | nil => exact fun _ => h.closed.pure _
    | cons t rest ih =>
      intro hmem
      rw [Topology.statFrom]
      refine h.closed.bind ((h.whole t (hmem t (by simp))).stat key) fun m => ?_
      split
      · exact h.closed.pure _
      · exact ih fun u hu => hmem u (List.mem_cons_of_mem _ hu)
  exact hfrom _ fun t ht => mem_lookups ht

theorem batchStat (h : Readers T Q) (keys : List K) : Q (T.batchStat keys) := by
  refine h.closed.foldlM (fun found t ht => ?_) _
  simp only
  split
  · exact h.closed.pure _
  · exact h.closed.map ((h.whole t (mem_lookups ht)).batchStat _) _

end Readers

end Readers

/-! ## Writes and removals -/

section Writers

variable {S K V P : Type} [DecidableEq K]

/-- What the operations that change records are made of: writes to the committing
    targets, removals of what is removed at once, and syncs of what follows the commit. -/
structure Writers (T : Topology S K V P) (Q : ∀ {α : Type}, M (Node S K V P) α → Prop) : Prop where
  closed : Closed Q
  write : ∀ t ∈ T.committing, ∀ k v o, Q (Node.onMedia (runCommitting t.name t.role (t.write k v o)))
  batchWrite : ∀ t ∈ T.committing, ∀ items o,
    Q (Node.onMedia (runCommitting t.name t.role (t.batchWrite items o)))
  conditional : ∀ t, T.authority = some t → ∀ ws o,
    Q (Node.onMedia (runCommitting t.name t.role (t.batchWriteIfUnchanged ws o)))
  removed : ∀ t ∈ T.removedNow, ∀ (r : Topology.Removal) k, Q (Node.onMedia (r.point t k))
  batchRemoved : ∀ t ∈ T.removedNow, ∀ (r : Topology.Removal) ks, Q (Node.onMedia (r.batch t ks))
  probed : T.authority = none → ∀ t ∈ T.components, ∀ ks, Q (Node.onMedia (t.batchExists ks))
  sync : ∀ t ∈ T.dependents, ∀ what op, Q (T.syncOne t what op none)
  syncRemoval : ∀ t ∈ T.removedAfterCommit, ∀ what (r : Topology.Removal) ks,
    Q (T.syncOne t what (r.batchOp ks) none) ∧ ∀ k, Q (T.syncOne t what (r.pointOp k) none)

namespace Writers

variable {T : Topology S K V P} {Q : ∀ {α : Type}, M (Node S K V P) α → Prop}

theorem toDependents (h : Writers T Q) (what : String) (op : SyncOp K V) :
    Q (T.toDependents what op none) := h.closed.forM fun t ht => h.sync t ht what op

theorem writes (h : Writers T Q) (key : K) (value : V) (options : WriteOptions) :
    Q (T.write key value options) :=
  h.closed.bind (h.closed.forM fun t ht => h.write t ht _ _ _) fun _ => h.toDependents _ _

theorem batchWrites (h : Writers T Q) (items : Dict K V) (options : WriteOptions) :
    Q (T.batchWrite items options) :=
  h.closed.when (h.closed.bind (h.closed.forM fun t ht => h.batchWrite t ht _ _) fun _ =>
    h.toDependents _ _)

theorem components_all {T : Topology S K V P} {t : AnyTarget S K V P} (ht : t ∈ T.components) :
    t ∈ T.all := List.mem_append_right _ (List.mem_of_mem_filter ht)

theorem components_subset (T : Topology S K V P) {t : AnyTarget S K V P} (ht : t ∈ T.components) :
    t ∈ T.committing := by
  obtain ⟨hm, hr⟩ := List.mem_filter.mp ht
  refine List.mem_flatMap.mpr ⟨.component, by simp, List.mem_filter.mpr ⟨?_, hr⟩⟩
  exact List.mem_append_right _ hm

theorem afterConditionals (h : Writers T Q) (writes : Dict K (ConditionalWrite V))
    (options : WriteOptions) (written : Finset K) : Q (T.afterConditional writes options written) := by
  refine h.closed.bind (h.closed.when (h.closed.forM fun t ht => ?_)) fun _ => ?_
  · exact (h.syncRemoval t ht _ .delete _).1
  · exact h.closed.forM fun t ht => h.closed.forM fun g _ => h.sync t ht _ _

theorem conditionals (h : Writers T Q) (writes : Dict K (ConditionalWrite V))
    (options : WriteOptions) : Q (T.batchWriteIfUnchanged writes options) := by
  unfold Topology.batchWriteIfUnchanged Topology.requireAuthority
  cases ha : T.authority with
  | none =>
    simp only [raise_bind]
    exact h.closed.raise _
  | some authority =>
    simp only [pure_bind]
    split
    · exact h.closed.raise _
    · refine h.closed.bind (h.closed.forM fun t ht => h.closed.forM fun g _ => ?_) fun _ => ?_
      · exact h.batchWrite t (components_subset T ht) _ _
      · refine h.closed.bind (h.conditional authority ha _ _) fun written => ?_
        exact h.closed.bind (h.afterConditionals writes options written) fun _ => h.closed.pure _

theorem removes (h : Writers T Q) (r : Topology.Removal) (key : K) : Q (T.remove r key) := by
  refine h.closed.bind (h.closed.mapM fun t ht => h.removed t ht r key) fun _ => ?_
  refine h.closed.bind (h.closed.forM fun t ht => ?_) fun _ => h.closed.pure _
  exact (h.syncRemoval t ht _ r []).2 key

theorem heldBefore (h : Writers T Q) (keys : List K) : Q (Node.onMedia (T.heldBefore keys)) := by
  unfold Topology.heldBefore
  split
  · next hn =>
    have hzoom : Node.onMedia (T.components.foldlM (fun held t => do
        return held ∪ (← t.batchExists keys)) (∅ : Finset K)) =
        T.components.foldlM (fun held t =>
          (fun found => held ∪ found) <$> (Node.onMedia (t.batchExists keys) : M (Node S K V P) _)) ∅ := by
      unfold Node.onMedia
      rw [Lens.zoom_foldlM]
      congr 1
      funext held t
      rw [Lens.zoom_bind]
      rfl
    rw [hzoom]
    exact h.closed.foldlM (fun held t ht => h.closed.map (h.probed (by simpa using hn) t ht _) _) _
  · exact h.closed.pure _

theorem batchRemoves (h : Writers T Q) (r : Topology.Removal) (keys : List K) :
    Q (T.batchRemove r keys none) := by
  unfold Topology.batchRemove
  split
  · exact h.closed.pure _
  refine h.closed.bind (h.heldBefore _) fun _ => ?_
  refine h.closed.bind (h.closed.mapM fun t ht => h.batchRemoved t ht r _) fun _ => ?_
  refine h.closed.bind (h.closed.forM fun t ht => ?_) fun _ => h.closed.pure _
  exact (h.syncRemoval t ht _ r _).1

theorem admits (h : Writers T Q) (typeName : String) (options : WriteOptions) :
    Q (T.admitWrite typeName options) := by
  unfold Topology.admitWrite requireWriteClockSupported
  split
  · exact h.closed.raise _
  · exact h.closed.pure _

/-- Every operation of the store is of the kind. -/
theorem op (h : Writers T Q) (typeName : String) (op : RecordOp K V) :
    Q (op.run (T.store typeName)) := by
  cases op with
  | set key value options => exact h.closed.bind (h.admits _ _) fun _ => h.writes key value options
  | batchSet items options => exact h.closed.bind (h.admits _ _) fun _ => h.batchWrites items options
  | delete key => exact h.closed.discard (h.removes .delete key)
  | batchDelete keys => exact h.closed.discard (h.batchRemoves .delete keys)
  | unset key => exact h.closed.discard (h.removes .unset key)
  | batchUnset keys => exact h.closed.discard (h.batchRemoves .unset keys)
  | writeIfUnchanged writes ttl =>
    refine h.closed.discard (h.closed.bind (h.closed.forM fun e _ => h.admits _ _) fun _ => ?_)
    split
    · exact h.closed.pure _
    · exact h.conditionals writes _

end Writers

end Writers

end Kvtsjl
