import Kvtsjl.Steps
import Kvtsjl.Tree

/-
  Kinds of stores.
  `KvStore.Is Q` says every operation a composition asks of a store is of the kind `Q`.
  Views and nodes have it of the stores they are made of, with one condition for each
  way a node treats a failure.
-/

namespace Kvtsjl

open Assoc (Dict)
open Effects Prog

/-! ## Stores and targets -/

section Stores

variable {σ S K V T P R : Type}

/-- Every operation a composition asks of the store is of the kind. -/
structure KvStore.Is (Q : ∀ {α : Type}, M σ α → Prop) (s : KvStore σ K V) : Prop where
  get : ∀ k, Q (s.get k)
  batchGet : ∀ ks, Q (s.batchGet ks)
  existsKey : ∀ k, Q (s.existsKey k)
  batchExists : ∀ ks, Q (s.batchExists ks)
  stat : ∀ k, Q (s.stat k)
  batchStat : ∀ ks, Q (s.batchStat ks)
  set : ∀ k v o, Q (s.set k v o)
  batchSet : ∀ items o, Q (s.batchSet items o)
  conditional : ∀ ws ttl, Q (s.batchWriteIfUnchanged ws ttl)
  delete : ∀ k, Q (s.delete k)
  batchDelete : ∀ ks, Q (s.batchDelete ks)
  unset : ∀ k, Q (s.unset k)
  batchUnset : ∀ ks, Q (s.batchUnset ks)

/-- Every read of the store is of the kind. -/
structure KvStore.Reads (Q : ∀ {α : Type}, M σ α → Prop) (s : KvStore σ K V) : Prop where
  get : ∀ k, Q (s.get k)
  batchGet : ∀ ks, Q (s.batchGet ks)
  existsKey : ∀ k, Q (s.existsKey k)
  batchExists : ∀ ks, Q (s.batchExists ks)
  stat : ∀ k, Q (s.stat k)
  batchStat : ∀ ks, Q (s.batchStat ks)

/-- Every operation of the store that changes records is of the kind. -/
structure KvStore.Writes (Q : ∀ {α : Type}, M σ α → Prop) (s : KvStore σ K V) : Prop where
  set : ∀ k v o, Q (s.set k v o)
  batchSet : ∀ items o, Q (s.batchSet items o)
  conditional : ∀ ws ttl, Q (s.batchWriteIfUnchanged ws ttl)
  delete : ∀ k, Q (s.delete k)
  batchDelete : ∀ ks, Q (s.batchDelete ks)
  unset : ∀ k, Q (s.unset k)
  batchUnset : ∀ ks, Q (s.batchUnset ks)

/-- Every write and removal of the target is of the kind. -/
structure Target.Writes (Q : ∀ {α : Type}, M S α → Prop) (t : Target S K V R) : Prop where
  write : ∀ k v o, Q (t.write k v o)
  batchWrite : ∀ items o, Q (t.batchWrite items o)
  conditional : ∀ ws o, Q (t.batchWriteIfUnchanged ws o)
  delete : ∀ k, Q (t.delete k)
  batchDelete : ∀ ks, Q (t.batchDelete ks)
  unset : ∀ k, Q (t.unset k)
  batchUnset : ∀ ks, Q (t.batchUnset ks)

variable {Q : ∀ {α : Type}, M S α → Prop}

theorem Target.Writes.on {t : Target S K V R} (hc : Closed Q) (h : t.Writes Q) (op : SyncOp K V) :
    Q (op.on t) := by
  cases op with
  | write key value options => exact h.write _ _ _
  | batchWrite items options => exact h.batchWrite _ _
  | delete key => exact hc.discard (h.delete key)
  | unset key => exact hc.discard (h.unset key)
  | batchDelete keys => exact hc.discard (h.batchDelete keys)
  | batchUnset keys => exact hc.discard (h.batchUnset keys)

theorem Target.Writes.point {t : Target S K V R} (h : t.Writes Q) (r : Topology.Removal) (k : K) :
    Q (r.point t k) := by
  cases r with
  | delete => exact h.delete k
  | unset => exact h.unset k

theorem Target.Writes.batch {t : Target S K V R} (h : t.Writes Q) (r : Topology.Removal)
    (ks : List K) : Q (r.batch t ks) := by
  cases r with
  | delete => exact h.batchDelete ks
  | unset => exact h.batchUnset ks

variable {Q' : ∀ {α : Type}, M σ α → Prop}

theorem Target.Reads.zoom {t : Target S K V R} (l : Lens σ S)
    (hQ : ∀ {α : Type} {m : M S α}, Q m → Q' (l.zoom m)) (h : t.Reads Q) : (t.zoom l).Reads Q' :=
  ⟨fun k => hQ (h.read k), fun ks => hQ (h.batchRead ks), fun k => hQ (h.existsKey k),
    fun ks => hQ (h.batchExists ks), fun k => hQ (h.stat k), fun ks => hQ (h.batchStat ks)⟩

theorem Target.Writes.zoom {t : Target S K V R} (l : Lens σ S)
    (hQ : ∀ {α : Type} {m : M S α}, Q m → Q' (l.zoom m)) (h : t.Writes Q) : (t.zoom l).Writes Q' :=
  ⟨fun k v o => hQ (h.write k v o), fun items o => hQ (h.batchWrite items o),
    fun ws o => hQ (h.conditional ws o), fun k => hQ (h.delete k), fun ks => hQ (h.batchDelete ks),
    fun k => hQ (h.unset k), fun ks => hQ (h.batchUnset ks)⟩

theorem KvStore.Is.zoom {s : KvStore S K V} (l : Lens σ S)
    (hQ : ∀ {α : Type} {m : M S α}, Q m → Q' (l.zoom m)) (h : s.Is Q) : (s.zoom l).Is Q' :=
  ⟨fun k => hQ (h.get k), fun ks => hQ (h.batchGet ks), fun k => hQ (h.existsKey k),
    fun ks => hQ (h.batchExists ks), fun k => hQ (h.stat k), fun ks => hQ (h.batchStat ks),
    fun k v o => hQ (h.set k v o), fun items o => hQ (h.batchSet items o),
    fun ws ttl => hQ (h.conditional ws ttl), fun k => hQ (h.delete k), fun ks => hQ (h.batchDelete ks),
    fun k => hQ (h.unset k), fun ks => hQ (h.batchUnset ks)⟩

theorem KvStore.Reads.zoom {s : KvStore S K V} (l : Lens σ S)
    (hQ : ∀ {α : Type} {m : M S α}, Q m → Q' (l.zoom m)) (h : s.Reads Q) : (s.zoom l).Reads Q' :=
  ⟨fun k => hQ (h.get k), fun ks => hQ (h.batchGet ks), fun k => hQ (h.existsKey k),
    fun ks => hQ (h.batchExists ks), fun k => hQ (h.stat k), fun ks => hQ (h.batchStat ks)⟩

theorem KvStore.Writes.zoom {s : KvStore S K V} (l : Lens σ S)
    (hQ : ∀ {α : Type} {m : M S α}, Q m → Q' (l.zoom m)) (h : s.Writes Q) : (s.zoom l).Writes Q' :=
  ⟨fun k v o => hQ (h.set k v o), fun items o => hQ (h.batchSet items o),
    fun ws ttl => hQ (h.conditional ws ttl), fun k => hQ (h.delete k), fun ks => hQ (h.batchDelete ks),
    fun k => hQ (h.unset k), fun ks => hQ (h.batchUnset ks)⟩

theorem KvStore.Is.weaken {Q'' : ∀ {α : Type}, M S α → Prop} {s : KvStore S K V} (h : s.Is Q)
    (hQ : ∀ {α : Type} {m : M S α}, Q m → Q'' m) : s.Is Q'' :=
  ⟨fun k => hQ (h.get k), fun ks => hQ (h.batchGet ks), fun k => hQ (h.existsKey k),
    fun ks => hQ (h.batchExists ks), fun k => hQ (h.stat k), fun ks => hQ (h.batchStat ks),
    fun k v o => hQ (h.set k v o), fun items o => hQ (h.batchSet items o),
    fun ws ttl => hQ (h.conditional ws ttl), fun k => hQ (h.delete k), fun ks => hQ (h.batchDelete ks),
    fun k => hQ (h.unset k), fun ks => hQ (h.batchUnset ks)⟩

theorem KvStore.Is.reads {s : KvStore S K V} (h : s.Is Q) : s.Reads Q :=
  ⟨h.get, h.batchGet, h.existsKey, h.batchExists, h.stat, h.batchStat⟩

theorem KvStore.Is.writes {s : KvStore S K V} (h : s.Is Q) : s.Writes Q :=
  ⟨h.set, h.batchSet, h.conditional, h.delete, h.batchDelete, h.unset, h.batchUnset⟩

/-- Every operation a caller asks of the store is of the kind. -/
theorem KvStore.Writes.op {s : KvStore S K V} (hc : Closed Q) (h : s.Writes Q) (op : RecordOp K V) :
    Q (op.run s) := by
  cases op with
  | set key value options => exact h.set key value options
  | batchSet items options => exact h.batchSet items options
  | writeIfUnchanged writes ttl => exact hc.discard (h.conditional writes ttl)
  | delete key => exact hc.discard (h.delete key)
  | batchDelete keys => exact hc.discard (h.batchDelete keys)
  | unset key => exact hc.discard (h.unset key)
  | batchUnset keys => exact hc.discard (h.batchUnset keys)

variable [DecidableEq K]

theorem Target.Reads.upcast {t : Target S K V P} (hc : Closed Q) (h : t.Reads Q) (f : P → R) :
    (t.upcast f).Reads Q :=
  ⟨fun k => hc.map (h.read k) _, fun ks => hc.map (h.batchRead ks) _, h.existsKey, h.batchExists,
    h.stat, h.batchStat⟩

theorem Target.Writes.upcast {t : Target S K V P} (h : t.Writes Q) (f : P → R) :
    (t.upcast f).Writes Q :=
  ⟨h.write, h.batchWrite, h.conditional, h.delete, h.batchDelete, h.unset, h.batchUnset⟩

variable [DecidableEq T]

theorem storeTarget_reads {s : KvStore S K T} (hc : Closed Q) (h : s.Reads Q) (d : Declared)
    (slot : V → Option T) (up : T → P) : (storeTarget d s slot up : Target S K V P).Reads Q :=
  ⟨fun k => hc.map (h.get k) _, fun ks => hc.map (h.batchGet ks) _, h.existsKey, h.batchExists,
    h.stat, h.batchStat⟩

theorem storeTarget_writes {s : KvStore S K T} (hc : Closed Q) (h : s.Writes Q) (d : Declared)
    (slot : V → Option T) (up : T → P) : (storeTarget d s slot up : Target S K V P).Writes Q where
  write k v o := by
    unfold storeTarget keyMapTarget
    dsimp only
    cases slot v with
    | none => exact hc.discard (h.unset k)
    | some item => exact h.set k item o
  batchWrite items o :=
    hc.bind (hc.when (h.batchSet _ _)) fun _ => hc.when (hc.discard (h.batchUnset _))
  conditional ws o := by
    unfold storeTarget keyMapTarget
    simp only
    split
    · exact hc.raise _
    · exact h.conditional _ _
  delete := h.delete
  batchDelete := h.batchDelete
  unset := h.unset
  batchUnset := h.batchUnset

omit [DecidableEq K] [DecidableEq T] in
theorem countTrue_is (hc : Closed Q) {op : K → M S Bool} (h : ∀ k, Q (op k)) (ks : List K) :
    Q (countTrue op ks) := by
  refine hc.foldlM (fun n k _ => hc.bind (h k) fun b => ?_) _
  split <;> exact hc.pure _

omit [DecidableEq T] in
theorem imapStore_writes {s : KvStore S K T} (hc : Closed Q) (h : s.Writes Q) (forward : T → V)
    (inverse : V → T) : (imapStore s forward inverse).Writes Q where
  set k _ o := h.set k _ o
  batchSet _ _ := hc.forM fun _ _ => h.set _ _ _
  conditional _ _ := h.conditional _ _
  delete := h.delete
  batchDelete ks := countTrue_is hc h.delete ks
  unset := h.unset
  batchUnset := h.batchUnset

theorem imapKeysStore_writes {SK : Type} [DecidableEq SK] {s : KvStore S SK V} (hc : Closed Q)
    (h : s.Writes Q) (toStore : K → SK) (fromStore : Option (SK → K)) :
    (imapKeysStore s toStore fromStore).Writes Q where
  set _ v o := h.set _ v o
  batchSet _ _ := hc.forM fun _ _ => h.set _ _ _
  conditional _ _ := hc.map (h.conditional _ _) _
  delete _ := h.delete _
  batchDelete ks := countTrue_is hc (fun _ => h.delete _) ks
  unset _ := h.unset _
  batchUnset _ := h.batchUnset _

omit [DecidableEq T] in
theorem imapStore_reads {s : KvStore S K T} (hc : Closed Q) (h : s.Reads Q) (forward : T → V)
    (inverse : V → T) : (imapStore s forward inverse).Reads Q where
  get k := hc.map (h.get k) _
  batchGet ks := by
    unfold imapStore
    simp only
    split
    · exact hc.pure _
    · exact hc.map (h.batchGet _) _
  existsKey := h.existsKey
  batchExists := h.batchExists
  stat := h.stat
  batchStat := h.batchStat

theorem imapKeysStore_reads {SK : Type} [DecidableEq SK] {s : KvStore S SK V} (hc : Closed Q)
    (h : s.Reads Q) (toStore : K → SK) (fromStore : Option (SK → K)) :
    (imapKeysStore s toStore fromStore).Reads Q where
  get _ := h.get _
  batchGet ks := by
    unfold imapKeysStore
    simp only
    split
    · exact hc.pure _
    · exact hc.map (h.batchGet _) _
  existsKey _ := h.existsKey _
  batchExists _ := hc.map (h.batchExists _) _
  stat _ := h.stat _
  batchStat _ := hc.map (h.batchStat _) _

omit [DecidableEq T] in
/-- A value view asks nothing else of the store behind it. -/
theorem imapStore_is {s : KvStore S K T} (hc : Closed Q) (h : s.Is Q) (forward : T → V)
    (inverse : V → T) : (imapStore s forward inverse).Is Q :=
  { imapStore_reads hc h.reads forward inverse, imapStore_writes hc h.writes forward inverse with }

/-- Nor does a key view. -/
theorem imapKeysStore_is {SK : Type} [DecidableEq SK] {s : KvStore S SK V} (hc : Closed Q) (h : s.Is Q)
    (toStore : K → SK) (fromStore : Option (SK → K)) : (imapKeysStore s toStore fromStore).Is Q :=
  { imapKeysStore_reads hc h.reads toStore fromStore,
    imapKeysStore_writes hc h.writes toStore fromStore with }

end Stores

/-! ## Nodes -/

section Nodes

variable {S K V P : Type} [DecidableEq K] {T : Topology S K V P} {Q : ∀ {α : Type}, M S α → Prop}
  {Q' : ∀ {α : Type}, M (Node S K V P) α → Prop}

/-- The operations of a node are of the kind where the steps they are made of are. -/
theorem topologyStore_writes (hw : Writers T Q') (typeName : String) : (T.store typeName).Writes Q' where
  set k v o := hw.closed.bind (hw.admits _ _) fun _ => hw.writes k v o
  batchSet items o := hw.closed.bind (hw.admits _ _) fun _ => hw.batchWrites items o
  conditional ws ttl := by
    refine hw.closed.bind (hw.closed.forM fun e _ => hw.admits _ _) fun _ => ?_
    split
    · exact hw.closed.pure _
    · exact hw.conditionals ws _
  delete k := hw.removes .delete k
  batchDelete ks := hw.batchRemoves .delete ks
  unset k := hw.removes .unset k
  batchUnset ks := hw.batchRemoves .unset ks

theorem zipStore_writes (hw : Writers T Q') (z : Zip) (typeName : String) :
    (z.store T typeName).Writes Q' :=
  { topologyStore_writes hw typeName with
    conditional := fun ws ttl => by
      show Q' (if T.authority.isNone then _ else _)
      split
      · exact hw.closed.raise _
      · exact (topologyStore_writes hw typeName).conditional ws ttl }

theorem topologyStore_reads (hr : Readers T Q)
    (hQ : ∀ {α : Type} {m : M S α}, Q m → Q' (Node.onMedia m)) (typeName : String) :
    (T.store typeName).Reads Q' where
  get k := hQ (hr.read k)
  batchGet ks := hQ (hr.batchRead ks)
  existsKey k := hQ (hr.existsKey k)
  batchExists ks := hQ (hr.batchExists ks)
  stat k := by
    refine hQ ?_
    split
    · refine hr.closed.bind (hr.existsKey k) fun b => ?_
      split <;> exact hr.closed.pure _
    · exact hr.stat k
  batchStat ks := by
    refine hQ ?_
    split
    · exact hr.closed.map (hr.batchExists ks) _
    · exact hr.batchStat ks

theorem zipStore_reads (hr : Readers T Q)
    (hQ : ∀ {α : Type} {m : M S α}, Q m → Q' (Node.onMedia m))
    (hparts : ∀ t ∈ T.parts, t.Reads Q) (z : Zip) (typeName : String) :
    (z.store T typeName).Reads Q' :=
  { topologyStore_reads hr hQ typeName with
    stat := fun k => by
      refine hQ (hr.closed.bind (hr.read k) fun r => ?_)
      split
      · exact hr.closed.pure _
      · exact hr.closed.map (hr.closed.mapM fun t ht => (hparts t ht).stat k) _
    batchStat := fun ks => by
      refine hQ (hr.closed.bind (hr.batchRead ks) fun d => ?_)
      split
      · exact hr.closed.pure _
      · exact hr.closed.map (hr.closed.mapM fun t ht => (hparts t ht).batchStat _) _ }

theorem topologyStore_is (hr : Readers T Q) (hw : Writers T Q')
    (hQ : ∀ {α : Type} {m : M S α}, Q m → Q' (Node.onMedia m)) (typeName : String) :
    (T.store typeName).Is Q' :=
  { topologyStore_reads hr hQ typeName, topologyStore_writes hw typeName with }

theorem zipStore_is (hr : Readers T Q) (hw : Writers T Q')
    (hQ : ∀ {α : Type} {m : M S α}, Q m → Q' (Node.onMedia m))
    (hparts : ∀ t ∈ T.parts, t.Reads Q) (z : Zip) (typeName : String) :
    (z.store T typeName).Is Q' :=
  { zipStore_reads hr hQ hparts z typeName, zipStore_writes hw z typeName with }

/-- The writes of a node are of the kind where its targets' are, and what it asks of them
    after the commit point. -/
theorem writers_of (hc : Closed Q') (hQ : ∀ {α : Type} {m : M S α}, Q m → Q' (Node.onMedia m))
    (hrun : ∀ {α : Type} {m : M S α} (name : String) (role : Role), Q m → Q (runCommitting name role m))
    (hprobe : T.authority = none → ∀ t ∈ T.components, ∀ ks, Q (t.batchExists ks))
    (hwrites : ∀ t ∈ T.all, t.Writes Q)
    (hsync : ∀ t ∈ T.all, t.role ≠ .authority → ∀ what op, Q' (T.syncOne t what op none)) :
    Writers T Q' := by
  have hbyRole : ∀ {roles : List Role}, ∀ t ∈ T.byRole roles, t ∈ T.all := by
    intro roles t ht
    obtain ⟨r, -, ht⟩ := List.mem_flatMap.mp ht
    exact List.mem_of_mem_filter ht
  have hparts : ∀ t ∈ T.components, t ∈ T.all ∧ t.role = .component := by
    intro t ht
    obtain ⟨ht, hr⟩ := List.mem_filter.mp ht
    exact ⟨List.mem_append_right _ ht, of_decide_eq_true hr⟩
  have hdependents : ∀ t ∈ T.dependents, t ∈ T.all ∧ t.role = .dependent := by
    intro t ht
    obtain ⟨r, hr, ht⟩ := List.mem_flatMap.mp ht
    obtain ⟨ht, hrole⟩ := List.mem_filter.mp ht
    exact ⟨ht, (of_decide_eq_true hrole).trans (List.mem_singleton.mp hr)⟩
  have hremoved : ∀ t ∈ T.removedNow, t ∈ T.all := by
    intro t ht
    unfold Topology.removedNow at ht
    split at ht
    · next a ha =>
      rw [List.mem_singleton.mp ht]
      exact List.mem_of_find?_eq_some ha
    · exact (hparts t ht).1
  have hafter : ∀ t ∈ T.removedAfterCommit, t ∈ T.all ∧ t.role ≠ .authority := by
    intro t ht
    have hcases : t ∈ T.components ∨ t ∈ T.dependents := by
      unfold Topology.removedAfterCommit at ht
      split at ht
      · exact .inr ht
      · exact List.mem_append.mp ht
    rcases hcases with ht | ht
    · exact ⟨(hparts t ht).1, by rw [(hparts t ht).2]; exact Role.noConfusion⟩
    · exact ⟨(hdependents t ht).1, by rw [(hdependents t ht).2]; exact Role.noConfusion⟩
  exact {
    closed := hc
    write := fun t ht k v o => hQ (hrun _ _ ((hwrites t (hbyRole t ht)).write k v o))
    batchWrite := fun t ht items o => hQ (hrun _ _ ((hwrites t (hbyRole t ht)).batchWrite items o))
    conditional := fun t ht ws o =>
      hQ (hrun _ _ ((hwrites t (List.mem_of_find?_eq_some ht)).conditional ws o))
    removed := fun t ht r k => hQ ((hwrites t (hremoved t ht)).point r k)
    batchRemoved := fun t ht r ks => hQ ((hwrites t (hremoved t ht)).batch r ks)
    probed := fun hn t ht ks => hQ (hprobe hn t ht ks)
    sync := fun t ht what op => hsync t (hdependents t ht).1
      (by rw [(hdependents t ht).2]; exact Role.noConfusion) what op
    syncRemoval := fun t ht what r ks => ⟨hsync t (hafter t ht).1 (hafter t ht).2 what _,
      fun k => hsync t (hafter t ht).1 (hafter t ht).2 what _⟩ }

end Nodes

/-! ## Trees -/

section Places

variable {S K V P : Type} [DecidableEq K] {Q : ∀ {α : Type}, M S α → Prop}

theorem Shape.target_reads (hc : Closed Q) (d : Declared) :
    ∀ {T : Type} [DecidableEq T] (sh : Shape V P T) {s : KvStore S K T}, s.Reads Q →
      (sh.target d s).Reads Q
  | _, _, .whole, _, h => (storeTarget_reads hc h d some id).upcast hc Sum.inl
  | _, _, .piece slot up, _, h => (storeTarget_reads hc h d slot up).upcast hc Sum.inr

theorem Shape.target_writes (hc : Closed Q) (d : Declared) :
    ∀ {T : Type} [DecidableEq T] (sh : Shape V P T) {s : KvStore S K T}, s.Writes Q →
      (sh.target d s).Writes Q
  | _, _, .whole, _, h => (storeTarget_writes hc h d some id).upcast Sum.inl
  | _, _, .piece slot up, _, h => (storeTarget_writes hc h d slot up).upcast Sum.inr

theorem Shape.target?_reads (hc : Closed Q) (d : Declared) :
    ∀ {T : Type} [DecidableEq T] (sh : Shape V P T) {s : KvStore S K T}, s.Reads Q →
      ∀ t ∈ sh.target? d s, t.Reads Q
  | _, _, .whole, _, h, _, ht => by
    rw [← Option.some.inj ht]
    exact storeTarget_reads hc h d some id
  | _, _, .piece _ _, _, _, _, ht => by cases ht

theorem Shape.target?_writes (hc : Closed Q) (d : Declared) :
    ∀ {T : Type} [DecidableEq T] (sh : Shape V P T) {s : KvStore S K T}, s.Writes Q →
      ∀ t ∈ sh.target? d s, t.Writes Q
  | _, _, .whole, _, h, _, ht => by
    rw [← Option.some.inj ht]
    exact storeTarget_writes hc h d some id
  | _, _, .piece _ _, _, _, _, ht => by cases ht

theorem Shape.part?_reads (hc : Closed Q) (d : Declared) :
    ∀ {T : Type} [DecidableEq T] (sh : Shape V P T) {s : KvStore S K T}, s.Reads Q →
      ∀ t ∈ sh.part? d s, t.Reads Q
  | _, _, .whole, _, _, _, ht => by cases ht
  | _, _, .piece slot up, _, h, _, ht => by
    rw [← Option.some.inj ht]
    exact storeTarget_reads hc h d slot up

omit [DecidableEq K] in
/-- The attached indexes hold nothing to read. -/
theorem indexesTarget_reads (hc : Closed Q) (indexes : List (Index S K V)) (policy : SyncPolicy) :
    (indexesTarget indexes policy : Target S K V P).Reads Q where
  read _ := hc.raise _
  batchRead _ := hc.bind (hc.forM fun _ _ => hc.raise _) fun _ => hc.pure _
  existsKey _ := hc.raise _
  batchExists _ := hc.bind (hc.forM fun _ _ => hc.raise _) fun _ => hc.pure _
  stat _ := hc.raise _
  batchStat _ := hc.bind (hc.forM fun _ _ => hc.raise _) fun _ => hc.pure _

omit [DecidableEq K] in
/-- The writes of the attached indexes, where each way to attempt them all is of the kind. -/
theorem indexesTarget_writes (hc : Closed Q) (indexes : List (Index S K V)) (policy : SyncPolicy)
    (hsync : ∀ k v what, Q (each indexes (fun i => i.sync k v) what))
    (hbatch : ∀ items what, Q (each indexes (fun i => i.batchSync items) what))
    (hdelete : ∀ k what, Q (each indexes (fun i => Functor.discard (i.delete k)) what))
    (hdeletes : ∀ ks what, Q (each indexes (fun i => Functor.discard (i.batchDelete ks)) what)) :
    (indexesTarget indexes policy : Target S K V P).Writes Q where
  write k v _ := hsync k v _
  batchWrite items _ := hbatch items _
  conditional _ _ := hc.raise _
  delete k := hc.bind (hdelete k _) fun _ => hc.pure _
  batchDelete ks := hc.bind (hdeletes ks _) fun _ => hc.pure _
  unset k := hc.bind (hdelete k _) fun _ => hc.pure _
  batchUnset ks := countTrue_is hc (fun k => hc.bind (hdelete k _) fun _ => hc.pure _) ks

variable {n m : Nat} {C : Fin n → Type} {I : Fin m → Type} {part : Fin n → Type}
  [∀ i, DecidableEq (part i)] {stores : ∀ i, KvStore (C i) K (part i)} {declared : Fin n → Declared}
  {shape : ∀ i, Shape V P (part i)} {index : ∀ j, Index (I j) K V}
  {indexPolicy : Option SyncPolicy} {assemble : Option (Parts V P → Option V)}
  {Qm : ∀ {α : Type}, M (Media C I) α → Prop}

theorem mediaTopology_partReaders (hc : Closed Qm)
    (hchild : ∀ i, ((stores i).zoom (Media.child i : Lens (Media C I) (C i))).Reads Qm) :
    PartReaders (mediaTopology stores declared shape index indexPolicy assemble) Qm where
  closed := hc
  reads t ht := by
    rw [all_eq] at ht
    obtain ⟨p, -, rfl⟩ := List.mem_map.mp ht
    cases p with
    | none => exact (indexesTarget_reads hc _ _).upcast hc _
    | some i => exact Shape.target_reads hc _ _ (hchild i)

/-- The reads of a node are of the kind where its children's operations are, and the
    fills of those that are filled. -/
theorem mediaTopology_readers (hc : Closed Qm)
    (hchild : ∀ i, ((stores i).zoom (Media.child i : Lens (Media C I) (C i))).Reads Qm)
    (hfills : ∀ t ∈ (mediaTopology stores declared shape index indexPolicy assemble).targets,
      t.fill = true → ∀ ws o, Qm (tryFill (t.batchWriteIfUnchanged ws o))) :
    Readers (mediaTopology stores declared shape index indexPolicy assemble) Qm :=
  { mediaTopology_partReaders hc hchild with
    whole := fun t ht => by
      rcases List.mem_append.mp ht with ht | ht
      · obtain ⟨i, -, ht⟩ := List.mem_filterMap.mp ht
        exact Shape.target?_reads hc _ _ (hchild i) t ht
      · obtain ⟨policy, -, rfl⟩ := Option.map_eq_some_iff.mp (Option.mem_toList.mp ht)
        exact indexesTarget_reads hc _ _
    fills := hfills }

theorem mediaTopology_parts (hc : Closed Qm)
    (hchild : ∀ i, ((stores i).zoom (Media.child i : Lens (Media C I) (C i))).Reads Qm) :
    ∀ t ∈ (mediaTopology stores declared shape index indexPolicy assemble).parts, t.Reads Qm := by
  intro t ht
  obtain ⟨i, -, ht⟩ := List.mem_filterMap.mp ht
  exact Shape.part?_reads hc _ _ (hchild i) t ht

end Places

end Kvtsjl
