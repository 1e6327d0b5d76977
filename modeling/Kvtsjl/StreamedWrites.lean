import Kvtsjl.Fill
import Kvtsjl.FlushSyncs
import Kvtsjl.StreamedReads

/-
  A streamed write against a plain one.
  `set` hands a mirror's copies the value, `set_stream` feeds each by reading the authority
  again, at once or when the queue is flushed. Time goes by between the write and the flush.
  `Lasting`: wherever a copy is fed, the authority still shows what was written. Then both
  ways leave the same state, and only then: what is not shown is not copied.
-/

namespace Kvtsjl

open Assoc (Dict)
open Effects Prog Nesting Composition

/-! ## Mirrors in time -/

/-- A leaf that streams, and how it stands to time. Reading what is there changes nothing, and
    what shows nothing shows nothing later. A streamed write that returns has done what the
    plain write of the whole value does. -/
structure ClockedLeaf (K A : Type) extends StreamLeaf K A where
  /-- The state when so much time has gone by. -/
  wait : Nat → State → State
  /-- Whether what is written with the options has expired so much later. -/
  lapses : WriteOptions → Nat → State → Bool
  wait_zero : ∀ x, wait 0 x = x
  wait_wait : ∀ d e x, wait e (wait d x) = wait (d + e) x
  lapses_mono : ∀ {options d e x}, d ≤ e → lapses options d x = true → lapses options e x = true
  kept : ∀ {key x v}, (store.get key x).1 = .ok (some v) → (streaming.readStream key x).2 = x
  gone : ∀ {key x} (e), (store.get key x).1 = .ok none → (store.get key (wait e x)).1 = .ok none
  shown : ∀ {key v options x y} (e), store.set key v options x = (.ok (), y) →
    (store.get key (wait e y)).1 = .ok (if lapses options e x then none else some v)
  written : ∀ {key v options size x y chunks}, store.set key v options x = (.ok (), y) →
    chunks.flatten = v → (streaming.setStream key options size (x, chunks)).1 = .ok () →
    (streaming.setStream key options size (x, chunks)).2.1 = y
  marks : ∀ {key v options x y} (d), store.set key v options x = (.ok (), y) → wait d y ≠ wait d x
  queueless : toLeaf.Queueless

namespace ClockedLeaf

variable {K A : Type} (l : ClockedLeaf K A)

/-- The leaf shows at any time what a write from `x` has left to show then, where `t` of that
    time is over. -/
def Tracks (key : K) (v : List A) (options : WriteOptions) (x : l.State) (t : Nat) (y : l.State) : Prop :=
  ∀ e, (l.store.get key (l.wait e y)).1 = .ok (if l.lapses options (t + e) x then none else some v)

variable {l} {key : K} {v : List A} {options : WriteOptions} {x y : l.State} {t : Nat}

theorem tracks_set (h : l.store.set key v options x = (.ok (), y)) : l.Tracks key v options x 0 y := by
  intro e
  rw [Nat.zero_add]
  exact l.shown e h

theorem Tracks.wait (h : l.Tracks key v options x t y) (d : Nat) : l.Tracks key v options x (t + d) (l.wait d y) := by
  intro e
  rw [l.wait_wait, h (d + e), Nat.add_assoc]

theorem Tracks.read (h : l.Tracks key v options x t y) : ∃ chunks w, l.streaming.readStream key y = (.ok chunks, w) ∧
    chunks.map List.flatten = (if l.lapses options t x then none else some v) ∧
    l.Tracks key v options x t w ∧ (l.lapses options t x = false → w = y) := by
  have hnow := h 0
  rw [l.wait_zero, Nat.add_zero] at hnow
  obtain ⟨chunks, w, hrun, hflat, hagain⟩ := l.reads (Prod.ext hnow rfl)
  have hsame : l.lapses options t x = false → w = y := by
    intro hl
    rw [hl, if_neg Bool.false_ne_true] at hnow
    have hw := l.kept hnow
    rwa [hrun] at hw
  refine ⟨chunks, w, hrun, hflat, ?_, hsame⟩
  cases hl : l.lapses options t x with
  | false =>
    rw [hsame hl]
    exact h
  | true =>
    intro e
    rw [hl, if_pos rfl] at hagain
    rw [l.lapses_mono (Nat.le_add_right t e) hl, if_pos rfl]
    exact l.gone e hagain

end ClockedLeaf

/-- Mirrors over leaves: child 0 is the primary, child 1 the secondary. -/
inductive Mirrored (K A : Type) : Type 1 where
  | leaf (l : ClockedLeaf K A)
  | mirror (child : Fin 2 → Mirrored K A) (policy : SyncPolicy)

namespace Mirrored

section Definitions

variable {K A : Type} [DecidableEq K] [DecidableEq A]

def streamed : Mirrored K A → Streamed K A
  | .leaf l => .leaf l.toStreamLeaf
  | .mirror child policy =>
    .node "MirrorKvStore" 2 (fun i => (child i).streamed) (mirrorDeclared policy)

abbrev State (c : Mirrored K A) : Type := c.streamed.State

abbrev store (c : Mirrored K A) : KvStore c.State K (List A) := c.streamed.store

abbrev streaming (c : Mirrored K A) : Streaming c.State K A := c.streamed.streaming

/-- Nothing is queued. -/
abbrev Idle (c : Mirrored K A) (x : c.State) : Prop := c.streamed.plain.Idle x

/-- The state after a flush. -/
abbrev flushed (c : Mirrored K A) (x : c.State) : c.State := (c.store.flushIndexSyncs x).2

def wait : (c : Mirrored K A) → Nat → c.State → c.State
  | .leaf l, d, x => l.wait d x
  | .mirror child _, d, N => ⟨(fun i => (child i).wait d (N.media.1 i), N.media.2), N.syncs⟩

/-- The options as a target over this store takes them. -/
def receives (c : Mirrored K A) (options : WriteOptions) : WriteOptions :=
  if options.createdAt = none ∨ c.store.supportsWriteClock then options
  else { options with createdAt := none }

/-- The secondary waits for the flush. -/
def queues (child : Fin 2 → Mirrored K A) : Bool :=
  (child 0).store.writesAreDeferred && !(child 1).store.writesAreDeferred

/-- How long after the write the secondary is written, when the flush is `d` later. -/
def fedAt (child : Fin 2 → Mirrored K A) (d : Nat) : Nat := if queues child then d else 0

/-- Whether what is written has expired so much later at the leaf that a read comes to. -/
def lapses : (c : Mirrored K A) → WriteOptions → Nat → c.State → Bool
  | .leaf l, options, e, x => l.lapses options e x
  | .mirror child _, options, e, N => (child 0).lapses ((child 0).receives options) e (N.media.1 0)

/-- Wherever a secondary is written, the primary shows what was written. -/
def Lasting : (c : Mirrored K A) → WriteOptions → Nat → c.State → Prop
  | .leaf _, _, _, _ => True
  | .mirror child _, options, d, N =>
    (child 0).lapses ((child 0).receives options) (fedAt child d) (N.media.1 0) = false ∧
      (child 0).Lasting ((child 0).receives options) d (N.media.1 0) ∧
      (child 1).Lasting ((child 1).receives options) (d - fedAt child d)
        ((child 1).wait (fedAt child d) (N.media.1 1))

/-- No leaf fails to take the value when its turn comes, plain or streamed. -/
def Unfailing : (c : Mirrored K A) → K → List A → WriteOptions → Nat → c.State → Prop
  | .leaf l, key, v, options, _, x => (l.store.set key v options x).1 = .ok () ∧
    ∀ size chunks, chunks.flatten = v → (l.streaming.setStream key options size (x, chunks)).1 = .ok ()
  | .mirror child _, key, v, options, d, N =>
    (child 0).Unfailing key v ((child 0).receives options) d (N.media.1 0) ∧
      (child 1).Unfailing key v ((child 1).receives options) (d - fedAt child d)
        ((child 1).wait (fedAt child d) (N.media.1 1))

end Definitions

/-! ## One mirror -/

section Node

variable {K A : Type} [DecidableEq K] [DecidableEq A] {m : Nat} {C : Fin 2 → Type} {I : Fin m → Type}
  {stores : ∀ i, KvStore (C i) K (List A)} {streams : ∀ i, Streaming (C i) K A} {policy : SyncPolicy}

/-- The operation on a dependent, queued. -/
theorem syncOne_queued {S V P : Type} {T : Topology S K V P} {t : AnyTarget S K V P}
    (hq : (T.deferred && !t.writesAreDeferred) = true) (what : String) (op : SyncOp K V) (N : Node S K V P) :
    T.syncOne t what op none N = (.ok (), ⟨N.media, N.syncs ++ [⟨t.name, what, t.policy, t, op⟩]⟩) := by
  unfold Topology.syncOne Topology.runSync
  rw [if_pos hq]
  rfl

/-- The operation on a dependent, run at once. -/
theorem syncOne_now {S V P : Type} {T : Topology S K V P} {t : AnyTarget S K V P}
    (hq : (T.deferred && !t.writesAreDeferred) = false) (what : String) {op : SyncOp K V} {N : Node S K V P}
    {s : S} (h : op.on t N.media = (.ok (), s)) : T.syncOne t what op none N = (.ok (), ⟨s, N.syncs⟩) := by
  unfold Topology.syncOne Topology.runSync
  rw [hq, if_neg Bool.false_ne_true, Node.onMedia_apply]
  unfold settle
  rw [catching_ok h]

variable (stores streams policy) in
/-- The topology of a mirror. -/
abbrev mirrorStreams : StreamTopology (Media C I) K A :=
  Streamed.nodeStreams stores streams (mirrorDeclared policy)

variable (stores streams policy) in
abbrev mirrorTarget (i : Fin 2) : StreamTarget (Media C I) K A :=
  Streamed.targets stores streams (mirrorDeclared policy) i

theorem admitWrite_mirror {σ : Type} {options : WriteOptions}
    (h : options.createdAt = none ∨ (stores 0).supportsWriteClock = true) (typeName : String) :
    ((mirrorStreams stores streams policy : StreamTopology (Media C I) K A).topology.admitWrite typeName options :
      M σ Unit) = pure () := by
  have hclock : (mirrorStreams stores streams policy : StreamTopology (Media C I) K A).topology.supportsWriteClock =
      ((stores 0).supportsWriteClock && true) := rfl
  unfold Topology.admitWrite requireWriteClockSupported
  rw [hclock, Bool.and_true, if_neg]
  intro ⟨hsome, hnot⟩
  rcases h with h | h
  · rw [h] at hsome
    cases hsome
  · exact hnot h

/-- What a plain write leaves for the secondary: it is queued, or has been made. -/
theorem set_mirror {key : K} {v : List A} {options : WriteOptions} {N : Node (Media C I) K (List A) Empty}
    {y : C 0} (hclock : options.createdAt = none ∨ (stores 0).supportsWriteClock = true)
    (h : (stores 0).set key v ((mirrorTarget stores streams policy 0 : StreamTarget (Media C I) K A).receives options)
      (N.media.1 0) = (.ok (), y)) (typeName : String) :
    ((mirrorStreams stores streams policy).topology.store typeName).set key v options N =
      (mirrorStreams stores streams policy).topology.syncOne
        ((mirrorTarget stores streams policy 1).toTarget.upcast Sum.inl) "set" (.write key v options) none
        ⟨(Media.child 0).set N.media y, N.syncs⟩ := by
  let T : StreamTopology (Media C I) K A := mirrorStreams stores streams policy
  let first : AnyTarget (Media C I) K (List A) Empty :=
    (mirrorTarget stores streams policy 0).toTarget.upcast Sum.inl
  have hwrite : runCommitting first.name first.role (first.write key v (first.receives options)) N.media =
      (.ok (), (Media.child 0).set N.media y) := by
    refine catching_ok ?_
    show (((stores 0).set key v (first.receives options) (N.media.1 0)).1,
      (Media.child 0).set N.media ((stores 0).set key v (first.receives options) (N.media.1 0)).2) = _
    rw [show (stores 0).set key v (first.receives options) (N.media.1 0) = _ from h]
  have hcommit : (forM [first] fun t => Node.onMedia (runCommitting t.name t.role
      (t.write key v (t.receives options))) : M (Node (Media C I) K (List A) Empty) PUnit) N =
        (.ok (), ⟨(Media.child 0).set N.media y, N.syncs⟩) := by
    have hmedia : (Node.onMedia (runCommitting first.name first.role (first.write key v (first.receives options))) :
        M (Node (Media C I) K (List A) Empty) Unit) N = (.ok (), ⟨(Media.child 0).set N.media y, N.syncs⟩) := by
      rw [Node.onMedia_apply, hwrite]
    rw [List.forM_cons]
    exact bind_ok hmedia
  show ((T.topology.admitWrite typeName options : M _ Unit) >>= fun _ => T.topology.write key v options) N = _
  rw [admitWrite_mirror hclock, pure_bind]
  show ((forM [first] fun t => Node.onMedia (runCommitting t.name t.role
    (t.write key v (t.receives options))) : M (Node (Media C I) K (List A) Empty) PUnit) >>= fun _ =>
      T.topology.toDependents "set" (.write key v options) none) N = _
  rw [bind_ok hcommit]
  show (forM [(mirrorTarget stores streams policy 1).toTarget.upcast Sum.inl] fun t =>
    T.topology.syncOne t "set" (.write key v options) none) _ = _
  rw [List.forM_cons]
  exact congrFun (bind_pure _) _

variable (stores streams policy) in
/-- What a streamed write leaves for the secondary: it is to be fed from the primary. -/
theorem setStream_mirror {key : K} {options : WriteOptions} {size : Option Nat} {chunks rest : ChunkStream A}
    {N : Node (Media C I) K (List A) Empty} {z : C 0}
    (hclock : options.createdAt = none ∨ (stores 0).supportsWriteClock = true)
    (h : (streams 0).setStream key ((mirrorTarget stores streams policy 0 : StreamTarget (Media C I) K A).receives
      options) size (N.media.1 0, chunks) = (.ok (), (z, rest))) (typeName : String) :
    ((mirrorStreams stores streams policy).streaming typeName).setStream key options size (N, chunks) =
      (((mirrorStreams stores streams policy).topology.syncOne (StreamTopology.fedFrom
        (mirrorTarget stores streams policy 0) (mirrorTarget stores streams policy 1)) "set_stream"
          (.write key [] options) none ⟨(Media.child 0).set N.media z, N.syncs⟩).1,
        (((mirrorStreams stores streams policy).topology.syncOne (StreamTopology.fedFrom
          (mirrorTarget stores streams policy 0) (mirrorTarget stores streams policy 1)) "set_stream"
            (.write key [] options) none ⟨(Media.child 0).set N.media z, N.syncs⟩).2, rest)) := by
  let T : StreamTopology (Media C I) K A := mirrorStreams stores streams policy
  let first : StreamTarget (Media C I) K A := mirrorTarget stores streams policy 0
  let sync : M (Node (Media C I) K (List A) Empty) Unit := T.topology.syncOne
    (StreamTopology.fedFrom first (mirrorTarget stores streams policy 1)) "set_stream" (.write key [] options) none
  have hwrite : runCommitting first.name first.role (first.writeStream key (first.receives options) size)
      (N.media, chunks) = (.ok (), ((Media.child 0).set N.media z, rest)) := by
    refine catching_ok ?_
    show (((streams 0).setStream key (first.receives options) size (N.media.1 0, chunks)).1,
      ((Media.child 0).set N.media ((streams 0).setStream key (first.receives options) size
        (N.media.1 0, chunks)).2.1, ((streams 0).setStream key (first.receives options) size
          (N.media.1 0, chunks)).2.2)) = _
    rw [show (streams 0).setStream key (first.receives options) size (N.media.1 0, chunks) = _ from h]
  have hcommit : Node.mediaLens.beside.zoom (runCommitting first.name first.role
      (first.writeStream key (first.receives options) size)) (N, chunks) =
        (.ok (), ((⟨(Media.child 0).set N.media z, N.syncs⟩ : Node (Media C I) K (List A) Empty), rest)) := by
    show ((runCommitting first.name first.role (first.writeStream key (first.receives options) size)
      (N.media, chunks)).1, Node.mediaLens.beside.set (N, chunks) (runCommitting first.name first.role
        (first.writeStream key (first.receives options) size) (N.media, chunks)).2) = _
    rw [hwrite]
    rfl
  have hsync : (forM [mirrorTarget stores streams policy 1] fun t => T.topology.syncOne
      (StreamTopology.fedFrom first t) "set_stream" (.write key [] options) none) = sync := by
    rw [List.forM_cons]
    exact bind_pure _
  show ((T.topology.admitWrite typeName options : M _ Unit) >>= fun _ => T.writeStream key options size) (N, chunks) = _
  rw [admitWrite_mirror hclock, pure_bind]
  show (Node.mediaLens.beside.zoom (runCommitting first.name first.role
    (first.writeStream key (first.receives options) size)) >>= fun _ =>
      Lens.first.zoom (forM [mirrorTarget stores streams policy 1] fun t => T.topology.syncOne
        (StreamTopology.fedFrom first t) "set_stream" (.write key [] options) none)) (N, chunks) = _
  rw [bind_ok hcommit, hsync]
  rfl

variable (stores streams policy) in
/-- A mirror shows what its primary does. -/
theorem readStream_mirror (key : K) (N : Node (Media C I) K (List A) Empty) (typeName : String) :
    ((mirrorStreams stores streams policy).streaming typeName).readStream key N =
      (((streams 0).readStream key (N.media.1 0)).1,
        ⟨(Media.child 0).set N.media ((streams 0).readStream key (N.media.1 0)).2, N.syncs⟩) := by
  have hread : (mirrorTarget stores streams policy 0).readStream key N.media =
      (((streams 0).readStream key (N.media.1 0)).1,
        (Media.child 0).set N.media ((streams 0).readStream key (N.media.1 0)).2) := rfl
  have hfrom : (mirrorStreams stores streams policy).readStream key N.media =
      (((streams 0).readStream key (N.media.1 0)).1,
        (Media.child 0).set N.media ((streams 0).readStream key (N.media.1 0)).2) := by
    show StreamTopology.readStreamFrom key [mirrorTarget stores streams policy 0] [] N.media = _
    rw [StreamTopology.readStreamFrom]
    rcases hrun : (streams 0).readStream key (N.media.1 0) with ⟨e | c, w⟩ <;> rw [hrun] at hread
    · exact bind_error hread
    · rw [bind_ok hread]
      cases c <;> rfl
  show Node.onMedia _ N = _
  rw [Node.onMedia_apply, hfrom]

/-- A secondary that the primary shows nothing for is left alone. -/
theorem feed_hidden {key : K} {options : WriteOptions} {x : Media C I} {w : C 0}
    (h : (streams 0).readStream key (x.1 0) = (.ok none, w)) :
    (SyncOp.write key [] options).on (StreamTopology.fedFrom (mirrorTarget stores streams policy 0)
      (mirrorTarget stores streams policy 1)) x = (.ok (), (Media.child 0).set x w) := by
  have hread : (mirrorTarget stores streams policy 0).readStream key x =
      (.ok none, (Media.child 0).set x w) := by
    show (((streams 0).readStream key (x.1 0)).1,
      (Media.child 0).set x ((streams 0).readStream key (x.1 0)).2) = _
    rw [h]
  exact bind_ok hread

/-- A secondary is fed what the primary shows. -/
theorem feed_shown {key : K} {options : WriteOptions} {x : Media C I} {again rest : ChunkStream A} {z : C 1}
    (h : (streams 0).readStream key (x.1 0) = (.ok (some again), x.1 0))
    (hwrite : (streams 1).setStream key ((mirrorTarget stores streams policy 1 : StreamTarget (Media C I) K A).receives
      options) none (x.1 1, again) = (.ok (), (z, rest))) :
    (SyncOp.write key [] options).on (StreamTopology.fedFrom (mirrorTarget stores streams policy 0)
      (mirrorTarget stores streams policy 1)) x = (.ok (), (Media.child 1).set x z) := by
  have hread : (mirrorTarget stores streams policy 0).readStream key x = (.ok (some again), x) := by
    show (((streams 0).readStream key (x.1 0)).1,
      (Media.child 0).set x ((streams 0).readStream key (x.1 0)).2) = _
    rw [h]
    exact congrArg (Prod.mk _) ((Media.child 0).set_get x)
  refine (bind_ok hread).trans ?_
  show (((streams 1).setStream key ((mirrorTarget stores streams policy 1 : StreamTarget (Media C I) K A).receives
    options) none (x.1 1, again)).1, (Media.child 1).set x ((streams 1).setStream key
      ((mirrorTarget stores streams policy 1 : StreamTarget (Media C I) K A).receives options) none
        (x.1 1, again)).2.1) = _
  rw [hwrite]

/-- A secondary is handed the value. -/
theorem write_shown {key : K} {v : List A} {options : WriteOptions} {x : Media C I} {y : C 1}
    (h : (stores 1).set key v ((mirrorTarget stores streams policy 1 : StreamTarget (Media C I) K A).receives options)
      (x.1 1) = (.ok (), y)) :
    (SyncOp.write key v options).on ((mirrorTarget stores streams policy 1).toTarget.upcast
      (Sum.inl : List A → List A ⊕ Empty)) x = (.ok (), (Media.child 1).set x y) := by
  show (((stores 1).set key v ((mirrorTarget stores streams policy 1 : StreamTarget (Media C I) K A).receives options)
    (x.1 1)).1, (Media.child 1).set x ((stores 1).set key v
      ((mirrorTarget stores streams policy 1 : StreamTarget (Media C I) K A).receives options) (x.1 1)).2) = _
  rw [h]

end Node

/-! ## The tree -/

section Tree

variable {K A : Type} [DecidableEq K] [DecidableEq A]

/-- The media of a mirror's node. -/
abbrev NodeMedia (child : Fin 2 → Mirrored K A) : Type :=
  Media (fun i => (child i).State) fun j : Fin 0 => (Fin.elim0 j : IndexLeaf K (List A)).State

abbrev streams (child : Fin 2 → Mirrored K A) (policy : SyncPolicy) : StreamTopology (NodeMedia child) K A :=
  mirrorStreams (fun i => (child i).store) (fun i => (child i).streaming) policy

abbrev target (child : Fin 2 → Mirrored K A) (policy : SyncPolicy) (i : Fin 2) : StreamTarget (NodeMedia child) K A :=
  mirrorTarget (fun i => (child i).store) (fun i => (child i).streaming) policy i

theorem store_mirror (child : Fin 2 → Mirrored K A) (policy : SyncPolicy) :
    (mirror child policy).store = (streams child policy).topology.store "MirrorKvStore" :=
  congrArg (fun T => Topology.store T "MirrorKvStore")
    (Streamed.topology_eq (fun i => (child i).store) (fun i => (child i).streaming) (mirrorDeclared policy)
      (List.ofFn fun j : Fin 0 => (Fin.elim0 j : IndexLeaf K (List A)).index.zoom (Media.index j))).symm

omit [DecidableEq K] in
theorem leaves_queueless (c : Mirrored K A) : c.streamed.plain.Leaves Leaf.Queueless := by
  induction c with
  | leaf l => exact l.queueless
  | mirror child policy ih => exact fun i => ih i

theorem flushed_eq (c : Mirrored K A) (x : c.State) : c.flushed x = (c.streamed.plain.ran x).2 :=
  (c.streamed.plain.flush_ran c.leaves_queueless x).2

/-- A flush runs the mirror's queue, then flushes what lies beneath. -/
theorem flushed_mirror (child : Fin 2 → Mirrored K A) (policy : SyncPolicy) (N : (mirror child policy).State)
    (i : Fin 2) : ((mirror child policy).flushed N).media.1 i =
      (child i).flushed ((ranQueue N.syncs 0 N.media).2.1 i) := by
  have hchild := (ranPlaces_child (fun i => (child i).streamed.plain.ran)
    (nodup_nodePlaces (fun _ : Fin 2 => (Shape.whole : Shape (List A) Empty (List A))) none)
    (ranQueue N.syncs 0 N.media).2 i).1
  rw [if_pos (mem_nodePlaces _ _ i)] at hchild
  rw [flushed_eq, flushed_eq]
  exact hchild

theorem flushed_syncs (child : Fin 2 → Mirrored K A) (policy : SyncPolicy) (N : (mirror child policy).State) :
    ((mirror child policy).flushed N).syncs = [] := by
  rw [flushed_eq]
  rfl

/-- Two flushes of a mirror end alike where they do at both children. -/
theorem flushed_congr {child : Fin 2 → Mirrored K A} {policy : SyncPolicy} {N N' : (mirror child policy).State}
    (h : ∀ i, ((mirror child policy).flushed N).media.1 i = ((mirror child policy).flushed N').media.1 i) :
    (mirror child policy).flushed N = (mirror child policy).flushed N' := by
  have hindex : ((mirror child policy).flushed N).media.2 = ((mirror child policy).flushed N').media.2 :=
    funext fun j => j.elim0
  have hmedia : ((mirror child policy).flushed N).media = ((mirror child policy).flushed N').media :=
    Prod.ext (funext h) hindex
  have hsyncs := (flushed_syncs child policy N).trans (flushed_syncs child policy N').symm
  cases hN : (mirror child policy).flushed N
  cases hN' : (mirror child policy).flushed N'
  rw [hN, hN'] at hmedia hsyncs
  exact congrArg₂ Node.mk hmedia hsyncs

/-! ## Time and reads -/

omit [DecidableEq K] in
theorem wait_zero (c : Mirrored K A) (x : c.State) : c.wait 0 x = x := by
  induction c with
  | leaf l => exact l.wait_zero x
  | mirror child policy ih =>
    exact congrArg (fun first => (⟨(first, x.media.2), x.syncs⟩ : (mirror child policy).State))
      (funext fun i => ih i (x.media.1 i))

omit [DecidableEq K] in
theorem wait_wait (c : Mirrored K A) (d e : Nat) (x : c.State) : c.wait e (c.wait d x) = c.wait (d + e) x := by
  induction c with
  | leaf l => exact l.wait_wait d e x
  | mirror child policy ih =>
    exact congrArg (fun first => (⟨(first, x.media.2), x.syncs⟩ : (mirror child policy).State))
      (funext fun i => ih i (x.media.1 i))

omit [DecidableEq K] in
theorem idle_wait {c : Mirrored K A} {x : c.State} (h : c.Idle x) (d : Nat) : c.Idle (c.wait d x) := by
  induction c with
  | leaf l => trivial
  | mirror child policy ih => exact ⟨h.1, fun i => ih i (h.2 i)⟩

theorem flushed_idle {c : Mirrored K A} {x : c.State} (h : c.Idle x) : c.flushed x = x :=
  congrArg Prod.snd (c.streamed.plain.flush_idle c.leaves_queueless x h).2

/-- The leaf that a read comes to shows what a write from `x` has left to show. -/
def Tracks : (c : Mirrored K A) → K → List A → WriteOptions → c.State → Nat → c.State → Prop
  | .leaf l, key, v, options, x, t, y => l.Tracks key v options x t y
  | .mirror child _, key, v, options, N, t, M =>
    (child 0).Tracks key v ((child 0).receives options) (N.media.1 0) t (M.media.1 0)

theorem Tracks.wait {c : Mirrored K A} {key : K} {v : List A} {options : WriteOptions} {x : c.State} {t : Nat}
    {y : c.State} (h : c.Tracks key v options x t y) (d : Nat) : c.Tracks key v options x (t + d) (c.wait d y) := by
  induction c generalizing options with
  | leaf l => exact ClockedLeaf.Tracks.wait h d
  | mirror child policy ih => exact ih 0 h

/-- A read shows the value until it has lapsed, and nothing after, and does not change what
    later reads show. One that shows the value changes nothing at all. -/
theorem Tracks.read {c : Mirrored K A} {key : K} {v : List A} {options : WriteOptions} {x : c.State} {t : Nat}
    {y : c.State} (h : c.Tracks key v options x t y) : ∃ chunks w, c.streaming.readStream key y = (.ok chunks, w) ∧
      chunks.map List.flatten = (if c.lapses options t x then none else some v) ∧
      c.Tracks key v options x t w ∧ (c.lapses options t x = false → w = y) := by
  induction c generalizing options with
  | leaf l => exact ClockedLeaf.Tracks.read h
  | mirror child policy ih =>
    obtain ⟨chunks, w, hrun, hflat, htracks, hsame⟩ := ih 0 h
    refine ⟨chunks, ⟨(Media.child 0).set y.media w, y.syncs⟩, ?_, hflat, ?_, ?_⟩
    · have hnode := readStream_mirror (fun i => (child i).store) (fun i => (child i).streaming) policy key y
        "MirrorKvStore"
      rw [hrun] at hnode
      exact hnode
    · show (child 0).Tracks key v _ _ t (Function.update y.media.1 0 w 0)
      rwa [Function.update_self]
    · intro hl
      rw [hsame hl]
      exact congrArg (fun media => (⟨media, y.syncs⟩ : (mirror child policy).State)) ((Media.child 0).set_get y.media)

/-- The state has been read and time has gone by, so much of it. -/
inductive Touched (c : Mirrored K A) (key : K) : Nat → c.State → c.State → Prop
  | refl (x : c.State) : Touched c key 0 x x
  | read {d : Nat} {x y : c.State} (h : Touched c key d x y) : Touched c key d x (c.streaming.readStream key y).2
  | wait {d : Nat} {x y : c.State} (h : Touched c key d x y) (e : Nat) : Touched c key (d + e) x (c.wait e y)

theorem touched_wait (c : Mirrored K A) (key : K) (d : Nat) (x : c.State) : c.Touched key d x (c.wait d x) := by
  have h := (Touched.refl x : c.Touched key 0 x x).wait d
  rwa [Nat.zero_add] at h

/-- Reads touch the primary only. -/
theorem touched_mirror {child : Fin 2 → Mirrored K A} {policy : SyncPolicy} {key : K} {d : Nat}
    {N M : (mirror child policy).State} (h : (mirror child policy).Touched key d N M) :
    (child 0).Touched key d (N.media.1 0) (M.media.1 0) ∧
      M.media.1 1 = (child 1).wait d (N.media.1 1) ∧ M.syncs = N.syncs := by
  induction h with
  | refl N => exact ⟨.refl _, ((child 1).wait_zero _).symm, rfl⟩
  | @read d N M _ ih =>
    obtain ⟨hfirst, hsecond, hsyncs⟩ := ih
    have hnode := congrArg Prod.snd (readStream_mirror (fun i => (child i).store) (fun i => (child i).streaming)
      policy key M "MirrorKvStore")
    have hstate : ((mirror child policy).streaming.readStream key M).2 =
        ⟨(Media.child 0).set M.media ((child 0).streaming.readStream key (M.media.1 0)).2, M.syncs⟩ := hnode
    rw [hstate]
    refine ⟨?_, hsecond, hsyncs⟩
    show (child 0).Touched key d _ (Function.update M.media.1 0 _ 0)
    rw [Function.update_self]
    exact hfirst.read
  | @wait d N M _ e ih =>
    obtain ⟨hfirst, hsecond, hsyncs⟩ := ih
    refine ⟨hfirst.wait e, ?_, hsyncs⟩
    show (child 1).wait e (M.media.1 1) = _
    rw [hsecond, wait_wait]

theorem Tracks.touched {c : Mirrored K A} {key : K} {v : List A} {options : WriteOptions} {x : c.State} {t d : Nat}
    {y w : c.State} (hw : c.Touched key d y w) (h : c.Tracks key v options x t y) :
    c.Tracks key v options x (t + d) w := by
  induction hw with
  | refl => exact h
  | read _ ih =>
    obtain ⟨chunks, w, hrun, -, htracks, -⟩ := (ih h).read
    rwa [hrun]
  | wait _ e ih =>
    rw [← Nat.add_assoc]
    exact (ih h).wait e

/-! ## How a mirror ends -/

theorem receives_keeps (c : Mirrored K A) (options : WriteOptions) :
    (c.receives options).createdAt = none ∨ c.store.supportsWriteClock = true := by
  unfold receives
  split
  · assumption
  · exact .inl rfl

theorem fedAt_le (child : Fin 2 → Mirrored K A) (d : Nat) : fedAt child d ≤ d := by
  unfold fedAt
  split <;> omega

section Ends

variable {child : Fin 2 → Mirrored K A} {policy : SyncPolicy} {key : K} {v : List A} {options : WriteOptions} {d : Nat}
  {N : (mirror child policy).State}

variable (child policy) in
/-- Whether the operation on the secondary waits. -/
theorem queues_eq {t : AnyTarget (NodeMedia child) K (List A) Empty}
    (ht : t.writesAreDeferred = (child 1).store.writesAreDeferred) :
    ((streams child policy).topology.deferred && !t.writesAreDeferred) = queues child := by
  have hdeferred : (streams child policy).topology.deferred = ((child 0).store.writesAreDeferred || false) := rfl
  rw [hdeferred, Bool.or_false, ht]
  rfl

theorem clock_mirror (hclock : options.createdAt = none ∨ (mirror child policy).store.supportsWriteClock = true) :
    options.createdAt = none ∨ (child 0).store.supportsWriteClock = true := by
  rw [store_mirror] at hclock
  have hand : (streams child policy).topology.supportsWriteClock = ((child 0).store.supportsWriteClock && true) := rfl
  rw [show ((streams child policy).topology.store "MirrorKvStore").supportsWriteClock = _ from hand,
    Bool.and_true] at hclock
  exact hclock

/-- A plain write and its flush are those of both children. -/
theorem set_ends (hidle : (mirror child policy).Idle N)
    (hclock : options.createdAt = none ∨ (mirror child policy).store.supportsWriteClock = true)
    {y₀ : (child 0).State} {y₁ : (child 1).State}
    (h₀ : (child 0).store.set key v ((child 0).receives options) (N.media.1 0) = (.ok (), y₀))
    (h₁ : (child 1).store.set key v ((child 1).receives options)
      ((child 1).wait (fedAt child d) (N.media.1 1)) = (.ok (), y₁)) :
    ∃ M, (mirror child policy).store.set key v options N = (.ok (), M) ∧
      ((mirror child policy).flushed ((mirror child policy).wait d M)).media.1 0 =
        (child 0).flushed ((child 0).wait d y₀) ∧
      ((mirror child policy).flushed ((mirror child policy).wait d M)).media.1 1 =
        (child 1).flushed ((child 1).wait (d - fedAt child d) y₁) := by
  have hset : (mirror child policy).store.set key v options N = (streams child policy).topology.syncOne
      ((target child policy 1).toTarget.upcast Sum.inl) "set" (.write key v options) none
        ⟨(Media.child 0).set N.media y₀, N.syncs⟩ := by
    rw [store_mirror]
    exact set_mirror (clock_mirror hclock) h₀ "MirrorKvStore"
  have hsyncs : N.syncs = [] := hidle.1
  have hq := queues_eq child policy
    (t := (target child policy 1).toTarget.upcast Sum.inl) rfl
  cases hqueues : queues child with
  | true =>
    have hat : fedAt child d = d := by rw [fedAt, hqueues, if_pos rfl]
    rw [hat] at h₁
    rw [hqueues] at hq
    rw [syncOne_queued hq, hsyncs] at hset
    let M : (mirror child policy).State := ⟨(Media.child 0).set N.media y₀, [⟨"secondary", "set", policy,
      (target child policy 1).toTarget.upcast Sum.inl, .write key v options⟩]⟩
    have hrun : (SyncOp.write key v options).on ((target child policy 1).toTarget.upcast Sum.inl)
        ((mirror child policy).wait d M).media =
          (.ok (), (Media.child 1).set ((mirror child policy).wait d M).media y₁) := write_shown h₁
    have hends : ∀ i, ((mirror child policy).flushed ((mirror child policy).wait d M)).media.1 i =
        (child i).flushed (((Media.child 1).set ((mirror child policy).wait d M).media y₁).1 i) := by
      intro i
      rw [flushed_mirror]
      exact congrArg (fun r => (child i).flushed (r.2.1 i)) hrun
    refine ⟨M, hset, hends 0, (hends 1).trans ?_⟩
    rw [hat, Nat.sub_self, wait_zero]
    rfl
  | false =>
    have hat : fedAt child d = 0 := by rw [fedAt, hqueues, if_neg Bool.false_ne_true]
    rw [hat, wait_zero] at h₁
    rw [hqueues] at hq
    let M : (mirror child policy).State := ⟨(Media.child 1).set ((Media.child 0).set N.media y₀) y₁, []⟩
    have hrun : (SyncOp.write key v options).on ((target child policy 1).toTarget.upcast Sum.inl)
        ((Media.child 0).set N.media y₀) = (.ok (), M.media) := write_shown h₁
    rw [hsyncs, syncOne_now (N := ⟨(Media.child 0).set N.media y₀, []⟩) hq "set" hrun] at hset
    refine ⟨M, hset, flushed_mirror child policy _ 0, (flushed_mirror child policy _ 1).trans ?_⟩
    rw [hat, Nat.sub_zero]
    rfl

/-- What a streamed write from `N` comes to, `M` being what it leaves and `z₀` what it left at
    the primary before the secondary's turn. Where the value has lapsed by then, the secondary
    stays as it was; otherwise it is fed the whole of it. -/
structure Fed (child : Fin 2 → Mirrored K A) (policy : SyncPolicy) (key : K) (v : List A) (options : WriteOptions)
    (d : Nat) (N : (mirror child policy).State) (z₀ : (child 0).State) (M : (mirror child policy).State) : Prop where
  tracks : (mirror child policy).Tracks key v options N 0 M
  lapsed : (child 0).lapses ((child 0).receives options) (fedAt child d) (N.media.1 0) = true →
    ∀ w, (mirror child policy).Touched key d M w →
      ((mirror child policy).flushed w).media.1 1 = (child 1).wait d (N.media.1 1)
  shown : (child 0).lapses ((child 0).receives options) (fedAt child d) (N.media.1 0) = false →
    M.media.1 0 = z₀ ∧ ∀ w, (mirror child policy).Touched key d M w →
      ((mirror child policy).flushed w).media.1 0 = (child 0).flushed (w.media.1 0) ∧
      ∃ again z₁ rest, again.flatten = v ∧ (child 1).streaming.setStream key ((child 1).receives options) none
          ((child 1).wait (fedAt child d) (N.media.1 1), again) = (.ok (), (z₁, rest)) ∧
        ((mirror child policy).flushed w).media.1 1 =
          (child 1).flushed ((child 1).wait (d - fedAt child d) z₁)

/-- The secondary is fed as the queue is flushed. -/
theorem fed_queued (hidle : (mirror child policy).Idle N) {z₀ : (child 0).State}
    (htracks : (child 0).Tracks key v ((child 0).receives options) (N.media.1 0) 0 z₀)
    (h₁ : ∀ again, again.flatten = v → ∃ z₁ rest, (child 1).streaming.setStream key ((child 1).receives options) none
      ((child 1).wait (fedAt child d) (N.media.1 1), again) = (.ok (), (z₁, rest)))
    (hat : fedAt child d = d) : Fed child policy key v options d N z₀
      ⟨(Media.child 0).set N.media z₀, [⟨"secondary", "set_stream", policy,
        StreamTopology.fedFrom (target child policy 0) (target child policy 1), .write key [] options⟩]⟩ := by
  refine ⟨htracks, ?_, ?_⟩
  · intro hl w hw
    obtain ⟨hfirst, hsecond, hsyncs⟩ := touched_mirror hw
    have hfirst' : (child 0).Touched key d z₀ (w.media.1 0) := hfirst
    obtain ⟨chunks, w₀, hrun, hflat, -, -⟩ := (htracks.touched hfirst').read
    rw [Nat.zero_add, ← hat, hl, if_pos rfl, Option.map_eq_none_iff] at hflat
    rw [hflat] at hrun
    have hfeed : (SyncOp.write key [] options).on (StreamTopology.fedFrom (target child policy 0)
        (target child policy 1)) w.media = (.ok (), (Media.child 0).set w.media w₀) := feed_hidden hrun
    rw [flushed_mirror, hsyncs]
    refine (congrArg (fun r => (child 1).flushed (r.2.1 1)) hfeed).trans ?_
    show (child 1).flushed (w.media.1 1) = _
    rw [hsecond]
    exact flushed_idle (idle_wait (hidle.2 1) d)
  · intro hl
    refine ⟨rfl, fun w hw => ?_⟩
    obtain ⟨hfirst, hsecond, hsyncs⟩ := touched_mirror hw
    have hfirst' : (child 0).Touched key d z₀ (w.media.1 0) := hfirst
    obtain ⟨chunks, w₀, hrun, hflat, -, hsame⟩ := (htracks.touched hfirst').read
    rw [Nat.zero_add] at hflat hsame
    rw [hat] at hl
    rw [hl, if_neg Bool.false_ne_true] at hflat
    obtain ⟨again, rfl, hv⟩ := Option.map_eq_some_iff.mp hflat
    rw [hsame hl] at hrun
    obtain ⟨z₁, rest, hwrite⟩ := h₁ again hv
    have hwrite' : (child 1).streaming.setStream key ((child 1).receives options) none (w.media.1 1, again) =
        (.ok (), (z₁, rest)) := by
      rw [hsecond, ← hwrite, hat]
      rfl
    have hfeed : (SyncOp.write key [] options).on (StreamTopology.fedFrom (target child policy 0)
        (target child policy 1)) w.media = (.ok (), (Media.child 1).set w.media z₁) := feed_shown hrun hwrite'
    have hends : ∀ i, ((mirror child policy).flushed w).media.1 i =
        (child i).flushed (((Media.child 1).set w.media z₁).1 i) := by
      intro i
      rw [flushed_mirror, hsyncs]
      exact congrArg (fun r => (child i).flushed (r.2.1 i)) hfeed
    refine ⟨hends 0, again, z₁, rest, hv, hwrite, (hends 1).trans ?_⟩
    rw [hat, Nat.sub_self, wait_zero]
    rfl

/-- The secondary is fed at once. -/
theorem fed_now (hidle : (mirror child policy).Idle N) {z₀ : (child 0).State}
    (htracks : (child 0).Tracks key v ((child 0).receives options) (N.media.1 0) 0 z₀)
    (h₁ : ∀ again, again.flatten = v → ∃ z₁ rest, (child 1).streaming.setStream key ((child 1).receives options) none
      ((child 1).wait (fedAt child d) (N.media.1 1), again) = (.ok (), (z₁, rest)))
    (hat : fedAt child d = 0) : ∃ media, (SyncOp.write key [] options).on
        (StreamTopology.fedFrom (target child policy 0) (target child policy 1)) ((Media.child 0).set N.media z₀) =
          (.ok (), media) ∧ Fed child policy key v options d N z₀ ⟨media, []⟩ := by
  obtain ⟨chunks, w₀, hrun, hflat, htracks', hsame⟩ := htracks.read
  cases hl : (child 0).lapses ((child 0).receives options) 0 (N.media.1 0) with
  | true =>
    rw [hl, if_pos rfl, Option.map_eq_none_iff] at hflat
    rw [hflat] at hrun
    refine ⟨(Media.child 0).set ((Media.child 0).set N.media z₀) w₀, feed_hidden hrun, htracks', ?_, ?_⟩
    · intro _ w hw
      obtain ⟨-, hsecond, hsyncs⟩ := touched_mirror hw
      rw [flushed_mirror, hsyncs]
      show (child 1).flushed (w.media.1 1) = _
      rw [hsecond]
      exact flushed_idle (idle_wait (hidle.2 1) d)
    · intro hlive
      rw [hat, hl] at hlive
      cases hlive
  | false =>
    rw [hl, if_neg Bool.false_ne_true] at hflat
    obtain ⟨again, rfl, hv⟩ := Option.map_eq_some_iff.mp hflat
    rw [hsame hl] at hrun
    obtain ⟨z₁, rest, hwrite⟩ := h₁ again hv
    have hwrite' : (child 1).streaming.setStream key ((child 1).receives options) none (N.media.1 1, again) =
        (.ok (), (z₁, rest)) := by
      rw [← hwrite, hat, wait_zero]
    refine ⟨(Media.child 1).set ((Media.child 0).set N.media z₀) z₁, feed_shown hrun hwrite', htracks, ?_, ?_⟩
    · intro hlapsed
      rw [hat, hl] at hlapsed
      cases hlapsed
    · intro _
      refine ⟨rfl, fun w hw => ?_⟩
      obtain ⟨-, hsecond, hsyncs⟩ := touched_mirror hw
      have hends : ∀ i, ((mirror child policy).flushed w).media.1 i = (child i).flushed (w.media.1 i) := by
        intro i
        rw [flushed_mirror, hsyncs]
        rfl
      refine ⟨hends 0, again, z₁, rest, hv, hwrite, (hends 1).trans ?_⟩
      rw [hsecond, hat, Nat.sub_zero]
      rfl

/-- A streamed write, and what is to come of it. -/
theorem setStream_ends (hidle : (mirror child policy).Idle N)
    (hclock : options.createdAt = none ∨ (mirror child policy).store.supportsWriteClock = true)
    {size : Option Nat} {chunks rest : ChunkStream A} {z₀ : (child 0).State}
    (h₀ : (child 0).streaming.setStream key ((child 0).receives options) size (N.media.1 0, chunks) =
      (.ok (), (z₀, rest)))
    (htracks : (child 0).Tracks key v ((child 0).receives options) (N.media.1 0) 0 z₀)
    (h₁ : ∀ again, again.flatten = v → ∃ z₁ rest, (child 1).streaming.setStream key ((child 1).receives options) none
      ((child 1).wait (fedAt child d) (N.media.1 1), again) = (.ok (), (z₁, rest))) :
    ∃ M, (mirror child policy).streaming.setStream key options size (N, chunks) = (.ok (), (M, rest)) ∧
      Fed child policy key v options d N z₀ M := by
  have hstream := setStream_mirror (fun i => (child i).store) (fun i => (child i).streaming) policy
    (N := N) (clock_mirror hclock) h₀ "MirrorKvStore"
  have hsyncs : N.syncs = [] := hidle.1
  have hq := queues_eq child policy
    (t := StreamTopology.fedFrom (target child policy 0) (target child policy 1)) rfl
  cases hqueues : queues child with
  | true =>
    have hat : fedAt child d = d := by rw [fedAt, hqueues, if_pos rfl]
    rw [hqueues] at hq
    rw [syncOne_queued hq, hsyncs] at hstream
    exact ⟨_, hstream, fed_queued hidle htracks h₁ hat⟩
  | false =>
    have hat : fedAt child d = 0 := by rw [fedAt, hqueues, if_neg Bool.false_ne_true]
    rw [hqueues] at hq
    obtain ⟨media, hrun, hfed⟩ := fed_now hidle htracks h₁ hat
    rw [hsyncs, syncOne_now (N := ⟨(Media.child 0).set N.media z₀, []⟩) hq "set_stream" hrun] at hstream
    exact ⟨_, hstream, hfed⟩

end Ends

/-! ## The whole tree -/

/-- Against a plain write, which leaves `y`, a streamed one ends the same where it is lasting,
    and nowhere else, whatever is read in between. -/
structure Replays (c : Mirrored K A) (key : K) (v : List A) (options : WriteOptions) (d : Nat) (x y z : c.State) :
    Prop where
  tracks : c.Tracks key v options x 0 z
  same : c.Lasting options d x → c.flushed (c.wait d z) = c.flushed (c.wait d y)
  other : ¬ c.Lasting options d x → ∀ w, c.Touched key d z w → c.flushed w ≠ c.flushed (c.wait d y)

theorem replays_mirror {child : Fin 2 → Mirrored K A} {policy : SyncPolicy} {key : K} {v : List A}
    {options : WriteOptions} {d : Nat} {N M M' : (mirror child policy).State} {y₀ z₀ : (child 0).State}
    {y₁ : (child 1).State}
    (hset : ((mirror child policy).flushed ((mirror child policy).wait d M)).media.1 0 =
        (child 0).flushed ((child 0).wait d y₀) ∧
      ((mirror child policy).flushed ((mirror child policy).wait d M)).media.1 1 =
        (child 1).flushed ((child 1).wait (d - fedAt child d) y₁))
    (hfed : Fed child policy key v options d N z₀ M')
    (h₀ : Replays (child 0) key v ((child 0).receives options) d (N.media.1 0) y₀ z₀)
    (hmarks : (child 1).flushed ((child 1).wait (d - fedAt child d) y₁) ≠
      (child 1).wait (d - fedAt child d) ((child 1).wait (fedAt child d) (N.media.1 1)))
    (h₁ : ∀ again z₁ rest, again.flatten = v → (child 1).streaming.setStream key ((child 1).receives options) none
        ((child 1).wait (fedAt child d) (N.media.1 1), again) = (.ok (), (z₁, rest)) →
      Replays (child 1) key v ((child 1).receives options) (d - fedAt child d)
        ((child 1).wait (fedAt child d) (N.media.1 1)) y₁ z₁) :
    Replays (mirror child policy) key v options d N M M' := by
  refine ⟨hfed.tracks, ?_, ?_⟩
  · rintro ⟨hlive, hlasting₀, hlasting₁⟩
    obtain ⟨hprimary, hends⟩ := hfed.shown hlive
    obtain ⟨hfirst, again, z₁, rest, hv, hwrite, hsecond⟩ := hends _ ((mirror child policy).touched_wait key d M')
    refine flushed_congr fun i => ?_
    match i with
    | 0 =>
      refine hfirst.trans (Eq.trans ?_ hset.1.symm)
      show (child 0).flushed ((child 0).wait d (M'.media.1 0)) = _
      rw [hprimary]
      exact h₀.same hlasting₀
    | 1 => exact hsecond.trans (((h₁ again z₁ rest hv hwrite).same hlasting₁).trans hset.2.symm)
  · intro hnot w hw heq
    have hfirst := congrArg (fun n : (mirror child policy).State => n.media.1 0) heq
    have hsecond := congrArg (fun n : (mirror child policy).State => n.media.1 1) heq
    dsimp only at hfirst hsecond
    rw [hset.1] at hfirst
    rw [hset.2] at hsecond
    cases hl : (child 0).lapses ((child 0).receives options) (fedAt child d) (N.media.1 0) with
    | true =>
      -- the secondary was passed over: the plain write has changed it
      refine hmarks (hsecond.symm.trans ((hfed.lapsed hl w hw).trans ?_))
      rw [wait_wait, Nat.add_sub_cancel' (fedAt_le child d)]
    | false =>
      obtain ⟨hprimary, hends⟩ := hfed.shown hl
      obtain ⟨hends₀, again, z₁, rest, hv, hwrite, hends₁⟩ := hends w hw
      by_cases hlasting₀ : (child 0).Lasting ((child 0).receives options) d (N.media.1 0)
      · have hlasting₁ : ¬ (child 1).Lasting ((child 1).receives options) (d - fedAt child d)
            ((child 1).wait (fedAt child d) (N.media.1 1)) := fun h => hnot ⟨hl, hlasting₀, h⟩
        have hwait := (child 1).touched_wait key (d - fedAt child d) z₁
        exact (h₁ again z₁ rest hv hwrite).other hlasting₁ _ hwait (hends₁.symm.trans hsecond)
      · have htouched := (touched_mirror hw).1
        rw [hprimary] at htouched
        exact h₀.other hlasting₀ _ htouched (hends₀.symm.trans hfirst)

/-- In a run that nothing fails in, a plain write marks the state, and any streamed write of the
    same value replays it. -/
theorem replays (c : Mirrored K A) {key : K} {v : List A} {options : WriteOptions} {d : Nat} {x : c.State}
    (hidle : c.Idle x) (hclock : options.createdAt = none ∨ c.store.supportsWriteClock = true)
    (h : c.Unfailing key v options d x) :
    ∃ y, c.store.set key v options x = (.ok (), y) ∧ c.flushed (c.wait d y) ≠ c.wait d x ∧
      ∀ size chunks, chunks.flatten = v → ∃ z rest,
        c.streaming.setStream key options size (x, chunks) = (.ok (), (z, rest)) ∧
          c.Replays key v options d x y z := by
  induction c generalizing options d with
  | leaf l =>
    obtain ⟨hset, hstream⟩ := h
    have hflushed : ∀ x : (leaf l).State, (leaf l).flushed x = x := fun x => flushed_idle (c := leaf l) trivial
    have hwrite : l.store.set key v options x = (.ok (), (l.store.set key v options x).2) := Prod.ext hset rfl
    refine ⟨(l.store.set key v options x).2, hwrite, ?_, fun size chunks hv => ?_⟩
    · rw [hflushed]
      exact l.marks d hwrite
    · have hrun : l.streaming.setStream key options size (x, chunks) = (.ok (), ((l.store.set key v options x).2,
          (l.streaming.setStream key options size (x, chunks)).2.2)) :=
        Prod.ext (hstream size chunks hv) (Prod.ext (l.written hwrite hv (hstream size chunks hv)) rfl)
      exact ⟨_, _, hrun, ClockedLeaf.tracks_set hwrite, fun _ => rfl, fun hnot => absurd trivial hnot⟩
  | mirror child policy ih =>
    obtain ⟨y₀, hset₀, hmarks₀, hstream₀⟩ := ih 0 (hidle.2 0) ((child 0).receives_keeps options) h.1
    obtain ⟨y₁, hset₁, hmarks₁, hstream₁⟩ :=
      ih 1 (idle_wait (hidle.2 1) _) ((child 1).receives_keeps options) h.2
    obtain ⟨M, hset, hends⟩ := set_ends hidle hclock hset₀ hset₁
    refine ⟨M, hset, fun heq => hmarks₀ ?_, fun size chunks hv => ?_⟩
    · exact hends.1.symm.trans (congrArg (fun n : (mirror child policy).State => n.media.1 0) heq)
    · obtain ⟨z₀, rest, hwrite₀, hreplays₀⟩ := hstream₀ size chunks hv
      obtain ⟨M', hwrite, hfed⟩ := setStream_ends hidle hclock hwrite₀ hreplays₀.tracks
        fun again hagain => (hstream₁ none again hagain).imp fun z h => h.imp fun rest h => h.1
      refine ⟨M', rest, hwrite, replays_mirror hends hfed hreplays₀ hmarks₁ ?_⟩
      intro again z₁ rest₁ hagain hwrite₁
      obtain ⟨z, rest', hrun, hreplays⟩ := hstream₁ none again hagain
      rw [hwrite₁] at hrun
      obtain ⟨-, hz⟩ := Prod.mk.inj hrun
      rw [(Prod.mk.inj hz).1]
      exact hreplays

/-- A streamed write, some time and a flush leave what a plain write of the whole value, the same
    time and a flush leave, exactly where the value lasts until every copy is made. -/
theorem setStream_settles_iff (c : Mirrored K A) (key : K) (options : WriteOptions) (size : Option Nat)
    (chunks : ChunkStream A) (d : Nat) (x : c.State) (hidle : c.Idle x)
    (hclock : options.createdAt = none ∨ c.store.supportsWriteClock = true)
    (h : c.Unfailing key chunks.flatten options d x) :
    c.flushed (c.wait d (c.streaming.setStream key options size (x, chunks)).2.1) =
      c.flushed (c.wait d (c.store.set key chunks.flatten options x).2) ↔ c.Lasting options d x := by
  obtain ⟨y, hset, -, hstream⟩ := c.replays hidle hclock h
  obtain ⟨z, rest, hwrite, hreplays⟩ := hstream size chunks rfl
  rw [hset, hwrite]
  exact ⟨fun heq => by_contra fun hnot => hreplays.other hnot _ (c.touched_wait key d z) heq, hreplays.same⟩

end Tree

end Mirrored

/-! ## Memory stores -/

theorem MemoryRoot.advance_zero {α VB : Type} [DecidableEq α] (x : MemoryRoot α VB) : x.advance 0 = x := by
  cases x
  simp [MemoryRoot.advance]

theorem MemoryRoot.advance_advance {α VB : Type} [DecidableEq α] (x : MemoryRoot α VB) (d e : Int) :
    (x.advance d).advance e = x.advance (d + e) := by
  simp [MemoryRoot.advance, Int.add_assoc]

theorem MemoryKvBackend.expired_mono {VB : Type} {entry : Entry VB} {now later : Instant} (h : now ≤ later)
    (hx : expired entry now = true) : expired entry later = true := by
  unfold expired at *
  cases he : entry.expiresAt with
  | none =>
    rw [he] at hx
    cases hx
  | some at_ =>
    rw [he] at hx
    exact decide_eq_true ((of_decide_eq_true hx).trans h)

namespace StreamingMemory

variable {K A α B : Type} [DecidableEq α] (b : StreamingMemory K A α B)

/-- An entry written with these options is expired so many microseconds after it was written. -/
def lapsesAfter (options : WriteOptions) (e : Nat) (x : MemoryRoot α (List B)) : Bool :=
  (b.expiresAt x options.ttl options.createdAt).any fun at_ => at_ ≤ x.clock + e

/-- What shows a value is left as it is. -/
theorem get_kept {key : K} {v : List A} {x : MemoryRoot α (List B)} (h : (b.get key x).1 = .ok (some v)) :
    (b.get key x).2 = x := by
  rw [b.get_state]
  rcases b.liveEntry_state key x with hsame | ⟨p, entry, hp, he, hx, -⟩
  · exact hsame
  · rw [b.get_eq, b.liveEntry_ok hp, he, Option.filter_some, hx] at h
    cases h

/-- A key that shows nothing has no entry, or an expired one. -/
theorem get_none_iff {key : K} {x : MemoryRoot α (List B)} : (b.get key x).1 = .ok none ↔
    ∃ p, b.physicalKeyBlob key = .ok p ∧ ∀ entry, b.entryAt x p = some entry →
      MemoryKvBackend.expired entry x.clock = true := by
  rw [b.get_eq]
  cases hp : b.physicalKeyBlob key with
  | error e =>
    rw [b.liveEntry_error hp]
    exact iff_of_false (fun h => nomatch h) fun ⟨p, h, _⟩ => nomatch h
  | ok p =>
    rw [b.liveEntry_ok hp]
    have hat : (∃ q, (Except.ok p : Except Exn (List α)) = .ok q ∧ ∀ entry, b.entryAt x q = some entry →
        MemoryKvBackend.expired entry x.clock = true) ↔ ∀ entry, b.entryAt x p = some entry →
        MemoryKvBackend.expired entry x.clock = true := by
      constructor
      · rintro ⟨q, hq, h⟩
        cases hq
        exact h
      · exact fun h => ⟨p, rfl, h⟩
    rw [hat]
    cases he : b.entryAt x p with
    | none => simp [Except.bind]
    | some entry =>
      cases hx : MemoryKvBackend.expired entry x.clock with
      | true => simp [Except.bind, Option.filter_some, hx]
      | false =>
        cases hd : b.kvset.valueSerde.deserialize entry.valueBlob <;>
          simp [Except.bind, Option.filter_some, hx, hd]

theorem get_gone {key : K} {x : MemoryRoot α (List B)} (e : Nat) (h : (b.get key x).1 = .ok none) :
    (b.get key (x.advance e)).1 = .ok none := by
  obtain ⟨p, hp, hall⟩ := b.get_none_iff.mp h
  refine b.get_none_iff.mpr ⟨p, hp, fun entry he => MemoryKvBackend.expired_mono ?_ (hall entry he)⟩
  exact Int.le_add_of_nonneg_right (Int.natCast_nonneg e)

/-- What a key shows some time after it is written: the value, unless it has lapsed. -/
theorem get_after_set {key : K} {v : List A} {options : WriteOptions} {x y : MemoryRoot α (List B)} (e : Nat)
    (h : b.set key v options x = (.ok (), y)) :
    (b.get key (y.advance e)).1 = .ok (if b.lapsesAfter options e x then none else some v) := by
  cases hp : b.physicalKeyBlob key with
  | error e =>
    unfold MemoryKvBackend.set at h
    rw [b.physicalKey_error hp, raise_bind] at h
    cases h
  | ok p =>
    rw [b.set_apply hp] at h
    obtain ⟨-, rfl⟩ := Prod.mk.inj h
    have hexpired : MemoryKvBackend.expired ⟨x.nextId, b.kvset.valueSerde.serialize v,
        b.expiresAt x options.ttl options.createdAt, MemoryKvBackend.clockBase x options.createdAt, x.clock⟩
        (x.clock + e) = b.lapsesAfter options e x := by
      unfold MemoryKvBackend.expired lapsesAfter
      cases b.expiresAt x options.ttl options.createdAt <;> rfl
    rw [b.get_eq, b.liveEntry_ok hp]
    unfold MemoryKvBackend.entryAt
    rw [MemoryRoot.bucket_advance, MemoryRoot.get?_put, if_pos rfl, Option.filter_some]
    rw [show ((x.put b.collection p (b.kvset.valueSerde.serialize v) (b.expiresAt x options.ttl options.createdAt)
      (MemoryKvBackend.clockBase x options.createdAt)).advance e).clock = x.clock + e from rfl, hexpired]
    cases b.lapsesAfter options e x with
    | true => rfl
    | false =>
      have hd := b.kvset.valueSerde.roundtrip v
      simp [Except.bind, hd]

theorem nextId_of_set {key : K} {v : List A} {options : WriteOptions} {x y : MemoryRoot α (List B)}
    (h : b.set key v options x = (.ok (), y)) : y.nextId = x.nextId + 1 := by
  cases hp : b.physicalKeyBlob key with
  | error e =>
    unfold MemoryKvBackend.set at h
    rw [b.physicalKey_error hp, raise_bind] at h
    cases h
  | ok p =>
    rw [b.set_apply hp] at h
    obtain ⟨-, rfl⟩ := Prod.mk.inj h
    rfl

theorem setStream_written {key : K} {v : List A} {options : WriteOptions} {x y : MemoryRoot α (List B)}
    {chunks : ChunkStream A} (h : b.set key v options x = (.ok (), y)) (hv : chunks.flatten = v)
    (size : Option Nat) : (b.setStream key options size (x, chunks)).2.1 = y := by
  rw [b.setStream_apply, hv, h]

theorem advance_marks {key : K} {v : List A} {options : WriteOptions} {x y : MemoryRoot α (List B)} (d : Int)
    (h : b.set key v options x = (.ok (), y)) : y.advance d ≠ x.advance d := by
  intro heq
  have hid := b.nextId_of_set h
  have hsame : (y.advance d).nextId = (x.advance d).nextId := by rw [heq]
  have hafter : (y.advance d).nextId = y.nextId := rfl
  have hbefore : (x.advance d).nextId = x.nextId := rfl
  omega

theorem lapsesAfter_mono {options : WriteOptions} {d e : Nat} {x : MemoryRoot α (List B)} (h : d ≤ e)
    (hl : b.lapsesAfter options d x = true) : b.lapsesAfter options e x = true := by
  unfold lapsesAfter at *
  rw [Option.any_eq_true] at *
  obtain ⟨at_, hat, hle⟩ := hl
  refine ⟨at_, hat, decide_eq_true ((of_decide_eq_true hle).trans ?_)⟩
  exact Int.add_le_add_left (Int.ofNat_le.mpr h) _

theorem readStream_kept {key : K} {v : List A} {x : MemoryRoot α (List B)} (h : (b.get key x).1 = .ok (some v)) :
    (b.readStream key x).2 = x := by
  rw [b.readStream_apply (Prod.ext h rfl)]
  exact b.get_kept h

/-- `MemoryKvStore`, in time. -/
def clocked [DecidableEq K] : ClockedLeaf K A where
  toStreamLeaf := b.leaf
  wait d x := MemoryRoot.advance x d
  lapses := b.lapsesAfter
  wait_zero := MemoryRoot.advance_zero
  wait_wait d e x := MemoryRoot.advance_advance x d e
  lapses_mono h hl := b.lapsesAfter_mono h hl
  kept h := b.readStream_kept h
  gone e h := b.get_gone e h
  shown e h := b.get_after_set e h
  written {_ _ _ size _ _ _} h hv _ := b.setStream_written h hv size
  marks d h := b.advance_marks d h
  queueless := ⟨fun _ => rfl, rfl, rfl⟩

end StreamingMemory

/-- The leaf, in a transaction of the caller's. -/
def ClockedLeaf.deferring {K A : Type} (l : ClockedLeaf K A) : ClockedLeaf K A where
  State := l.State
  store := { l.store with writesAreDeferred := true }
  streaming := l.streaming
  reads := l.reads
  stats := l.stats
  stores := l.stores
  supported := l.supported
  wait := l.wait
  lapses := l.lapses
  wait_zero := l.wait_zero
  wait_wait := l.wait_wait
  lapses_mono := l.lapses_mono
  kept := l.kept
  gone := l.gone
  shown := l.shown
  written := l.written
  marks := l.marks
  queueless := ⟨l.queueless.pending, l.queueless.flush, l.queueless.discard⟩

namespace Mirrored

def letters : ClockedLeaf (List Char) Char := StreamingMemory.plain.clocked

/-- Two stores that are written one after the other. -/
def pair : Mirrored (List Char) Char := mirror (fun _ => leaf letters) .required

/-- The secondary holds a word that the primary does not. -/
def pairHolds (clock : Instant) : pair.State :=
  ⟨(fun i => match i with
    | 0 => MemoryRoot.empty clock
    | 1 => (MemoryRoot.empty clock).put "items:v1" ['k'] ['o', 'l', 'd'] none 0, fun j => j.elim0), []⟩

theorem pair_idle (clock : Instant) : pair.Idle (pairHolds clock) := by
  refine And.intro rfl fun i => ?_
  match i with
  | 0 => trivial
  | 1 => trivial

/-- A write takes place at both stores, whatever its options and whenever it is made. -/
theorem pair_unfailing (clock : Instant) (v : List Char) (options : WriteOptions) (d : Nat) :
    pair.Unfailing ['k'] v options d (pairHolds clock) :=
  And.intro (And.intro rfl fun _ _ _ => rfl) (And.intro rfl fun _ _ _ => rfl)

/-- Two copies of a store in the caller's transaction. -/
def copied : Mirrored (List Char) Char :=
  mirror (fun i => match i with
    | 0 => leaf letters.deferring
    | 1 => pair) .required

def copiedHolds (clock : Instant) : copied.State :=
  ⟨(fun i => match i with
    | 0 => MemoryRoot.empty clock
    | 1 => pairHolds clock, fun j => j.elim0), []⟩

theorem copied_idle (clock : Instant) : copied.Idle (copiedHolds clock) := by
  refine And.intro rfl fun i => ?_
  match i with
  | 0 => trivial
  | 1 => exact pair_idle clock

theorem copied_unfailing (clock : Instant) (v : List Char) (options : WriteOptions) (d : Nat) :
    copied.Unfailing ['k'] v options d (copiedHolds clock) :=
  And.intro (And.intro rfl fun _ _ _ => rfl)
    (And.intro (And.intro rfl fun _ _ _ => rfl) (And.intro rfl fun _ _ _ => rfl))

/-- A minute goes by before the caller commits, of the hour that the value is to live. -/
theorem setStream_settles_copied :
    copied.flushed (copied.wait 60000000 (copied.streaming.setStream ['k'] ⟨some ⟨some 3600000000⟩, none⟩ none
      (copiedHolds 10000000, [['n', 'e'], ['w']])).2.1) =
    copied.flushed (copied.wait 60000000 (copied.store.set ['k'] ['n', 'e', 'w'] ⟨some ⟨some 3600000000⟩, none⟩
      (copiedHolds 10000000)).2) :=
  (setStream_settles_iff copied ['k'] ⟨some ⟨some 3600000000⟩, none⟩ none [['n', 'e'], ['w']] 60000000
    (copiedHolds 10000000) (copied_idle _) (.inl rfl) (copied_unfailing _ _ _ _)).mpr
      (And.intro rfl (And.intro trivial (And.intro rfl (And.intro trivial trivial))))

/-- What was written so long ago that its second is over is not shown by the primary, so the
    secondary goes on showing an older word. Written plainly, it shows nothing. -/
theorem setStream_leaves_older : ¬ ∀ (c : Mirrored (List Char) Char) (key : List Char) (options : WriteOptions)
    (size : Option Nat) (chunks : ChunkStream Char) (d : Nat) (x : c.State), c.Idle x →
    (options.createdAt = none ∨ c.store.supportsWriteClock = true) → c.Unfailing key chunks.flatten options d x →
    c.flushed (c.wait d (c.streaming.setStream key options size (x, chunks)).2.1) =
      c.flushed (c.wait d (c.store.set key chunks.flatten options x).2) := by
  intro h
  have heq := h pair ['k'] ⟨some ⟨some 1000000⟩, some 0⟩ none [['n', 'e'], ['w']] 0 (pairHolds 10000000)
    (pair_idle _) (.inr rfl) (pair_unfailing _ _ _ _)
  have hsecond := congrArg (fun n : pair.State => (letters.store.get ['k'] (n.media.1 1)).1) heq
  have hold : (Except.ok (some ['o', 'l', 'd']) : Except Exn (Option (List Char))) = .ok none := hsecond
  cases hold

end Mirrored

end Kvtsjl
