import Kvtsjl.Steps

/-
  What an operation of a store does, as steps.
  An operation that changes records is put together from writes to the committing
  targets, removals of what is removed at once, and syncs of what follows the commit
  point. `OpSteps T R` says each of these moves the node along `R`. `OpSteps.op` then
  says every operation does, whatever it returns or raises.
-/

namespace Kvtsjl

open Assoc (Dict)
open Effects Prog

/-- What a caller does to a store it may hold work for: an operation, a flush after the
    commit, or a discard after a rollback. -/
inductive Act (K V : Type) where
  | op (o : RecordOp K V)
  | flush
  | discard

def Act.run {σ K V : Type} (s : KvStore σ K V) : Act K V → M σ Unit
  | .op o => o.run s
  | .flush => s.flushIndexSyncs
  | .discard => s.discardIndexSyncs

/-- The state after a run, failing acts included. -/
def runActs {σ K V : Type} (s : KvStore σ K V) (acts : List (Act K V)) (st : σ) : σ :=
  acts.foldl (fun st a => (a.run s st).2) st

/-- What every act of a run preserves, the run preserves. -/
theorem runActs_induction {σ K V : Type} {s : KvStore σ K V} (I : σ → Prop)
    (acts : List (Act K V)) (h : ∀ a ∈ acts, ∀ st, I st → I (a.run s st).2) {st : σ} (h0 : I st) :
    I (runActs s acts st) := by
  induction acts generalizing st with
  | nil => exact h0
  | cons a acts ih =>
    exact ih (fun b hb => h b (List.mem_cons_of_mem _ hb)) (h a (by simp) st h0)

/-! ## Steps that keep what is kept under them -/

section Kept

variable {σ τ α : Type} {R : σ → σ → Prop}

theorem moves_discard {m : M σ α} (h : Moves R m) : Moves R (Functor.discard m) := by
  intro s
  rw [discard_apply]
  exact h s

theorem moves_runCommitting {m : M σ α} (h : Moves R m) (name : String) (role : Role) :
    Moves R (runCommitting name role m) := by
  intro s
  have hs := h s
  unfold runCommitting
  rcases hm : m s with ⟨e | a, s'⟩ <;> rw [hm] at hs
  · rw [catching_error hm]
    split <;> exact hs
  · rw [catching_ok hm]; exact hs

theorem moves_settle {m : M σ α} (h : Moves R m) (name what : String) (policy : SyncPolicy)
    (beforeCommit : Bool) (otherwise : α) :
    Moves R (settle name what policy beforeCommit otherwise m) := by
  intro s
  have hs := h s
  unfold settle
  rcases hm : m s with ⟨e | a, s'⟩ <;> rw [hm] at hs
  · rw [catching_error hm]
    split_ifs <;> exact hs
  · rw [catching_ok hm]; exact hs

/-- A program of the media moves a node as it moves the media. -/
theorem moves_onMedia {S K V P : Type} {R : Node S K V P → Node S K V P → Prop} {m : M S α}
    (h : Moves (fun s s' => ∀ syncs, R ⟨s, syncs⟩ ⟨s', syncs⟩) m) :
    Moves R (Node.onMedia m) := fun n => h n.media n.syncs

/-- What a failure becomes does not change where the node moved. -/
theorem moves_onMedia_runCommitting {S K V P : Type} {R : Node S K V P → Node S K V P → Prop}
    {m : M S α} (h : Moves R (Node.onMedia m)) (name : String) (role : Role) :
    Moves R (Node.onMedia (runCommitting name role m)) := by
  have hm : Moves (fun s s' => ∀ syncs, R ⟨s, syncs⟩ ⟨s', syncs⟩) m :=
    fun s syncs => h ⟨s, syncs⟩
  exact moves_onMedia (moves_runCommitting hm name role)

end Kept

/-! ## What a step raises -/

section RecordErrors

variable {S K V P α : Type}

/-- An error that says which side of the commit point failed is never one that says the
    operation is unsupported. -/
theorem Exn.not_unsupported {e : Exn} (h : e.isRecordWriteError = true) :
    e.isUnsupported = false := by
  cases e <;> first | rfl | cases h

theorem raises_runCommitting (name : String) (role : Role) (m : M S α) :
    Raises (fun e => e.isRecordWriteError = true) (runCommitting name role m) := by
  refine Raises.catching (fun _ _ _ => trivial : Raises (fun _ => True) m) fun e _ => ?_
  split
  · next h => exact Raises.raise h.2
  · exact Raises.raise rfl

/-- A target's answer is the answer of the step that commits to it. -/
theorem runCommitting_ok {α : Type} {m : M S α} {name : String} {role : Role} {s s' : S} {a : α}
    (h : runCommitting name role m s = (.ok a, s')) : m s = (.ok a, s') := by
  unfold runCommitting at h
  rcases hm : m s with ⟨e | b, s''⟩
  · rw [catching_error hm] at h
    split at h <;> cases h
  · rw [catching_ok hm] at h
    exact h

/-- What a committing step makes of a failure says which side of the commit failed. -/
theorem runCommitting_error {α : Type} {m : M S α} {s s' : S} {e : Exn}
    (h : m s = (.error e, s')) (name : String) (role : Role) :
    ∃ e' : Exn, e'.isRecordWriteError = true ∧ runCommitting name role m s = (.error e', s') := by
  unfold runCommitting
  rw [catching_error h]
  split
  · next hr => exact ⟨e, hr.2, rfl⟩
  · exact ⟨_, rfl, rfl⟩

/-- A committing step that does something or nothing still does, whatever it makes of the
    failure. -/
theorem does_runCommitting {m : M S α} {s : S} {Q : α → S → Prop} (h : Does m s Q)
    (name : String) (role : Role) : Does (runCommitting name role m) s Q := by
  refine h.catching fun e => ?_
  split
  · exact ⟨e, rfl⟩
  · exact ⟨_, rfl⟩

theorem raises_settle (name what : String) (policy : SyncPolicy) (beforeCommit : Bool)
    (otherwise : α) (m : M S α) :
    Raises (fun e => e.isRecordWriteError = true)
      (settle name what policy beforeCommit otherwise m) := by
  refine Raises.catching (fun _ _ _ => trivial : Raises (fun _ => True) m) fun e _ => ?_
  split_ifs with h1 h2 h3 h4
  · exact Raises.pure _
  · exact Raises.raise (by simp [Exn.isRecordWriteError, h3])
  · exact Raises.raise rfl
  · exact Raises.raise (by simp [Exn.isRecordWriteError, h4])
  · exact Raises.raise rfl

theorem raises_onMedia {p : Exn → Prop} {m : M S α} (h : Raises p m) :
    Raises p (Node.onMedia m : M (Node S K V P) α) := fun n e he => h n.media e he

theorem raises_syncOne [DecidableEq K] (T : Topology S K V P) (t : AnyTarget S K V P)
    (what : String) (op : SyncOp K V) (policy : Option SyncPolicy) :
    Raises (fun e => e.isRecordWriteError = true) (T.syncOne t what op policy) := by
  unfold Topology.syncOne Topology.runSync
  split
  · intro n e he
    cases he
  · exact raises_onMedia (raises_settle _ _ _ _ _ _)

/-- A write only raises errors of the commit. -/
theorem raises_write [DecidableEq K] (T : Topology S K V P) (key : K) (value : V)
    (o : WriteOptions) : Raises (fun e => e.isRecordWriteError = true) (T.write key value o) := by
  refine Raises.bind (Raises.forM fun t _ => ?_) fun _ => Raises.forM fun t _ => ?_
  · exact raises_onMedia (raises_runCommitting _ _ _)
  · exact raises_syncOne T t _ _ _

theorem raises_batchWrite [DecidableEq K] (T : Topology S K V P) (items : Dict K V)
    (o : WriteOptions) : Raises (fun e => e.isRecordWriteError = true) (T.batchWrite items o) := by
  refine Raises.when (Raises.bind (Raises.forM fun t _ => ?_) fun _ => Raises.forM fun t _ => ?_)
  · exact raises_onMedia (raises_runCommitting _ _ _)
  · exact raises_syncOne T t _ _ _

/-- A conditional batch that passes its check only raises errors of the commit. -/
theorem raises_conditional [DecidableEq K] {T : Topology S K V P}
    {writes : Dict K (ConditionalWrite V)} {o : WriteOptions} (ha : T.authority ≠ none)
    (hrep : T.replaced writes = []) :
    Raises (fun e => e.isRecordWriteError = true) (T.batchWriteIfUnchanged writes o) := by
  unfold Topology.batchWriteIfUnchanged Topology.requireAuthority
  cases hau : T.authority with
  | none => exact absurd hau ha
  | some a =>
  simp only [pure_bind]
  rw [if_neg (not_not.mpr hrep)]
  refine Raises.bind (Raises.forM fun t _ => Raises.forM fun g _ => ?_) fun _ => ?_
  · exact raises_onMedia (raises_runCommitting _ _ _)
  refine Raises.bind (raises_onMedia (raises_runCommitting _ _ _)) fun written => ?_
  refine Raises.bind (Raises.bind ?_ fun _ => ?_) fun _ => Raises.pure _
  · exact Raises.when (Raises.forM fun t _ => raises_syncOne T t _ _ _)
  · exact Raises.forM fun t _ => Raises.forM fun g _ => raises_syncOne T t _ _ _

end RecordErrors

/-! ## The steps of an operation -/

section OpSteps

variable {S K V P : Type} [DecidableEq K]

structure OpSteps (T : Topology S K V P) (R : Node S K V P → Node S K V P → Prop) : Prop where
  refl : ∀ n, R n n
  trans : ∀ n n' n'', R n n' → R n' n'' → R n n''
  write : ∀ t ∈ T.committing, ∀ k v o, Moves R (Node.onMedia (t.write k v o))
  batchWrite : ∀ t ∈ T.committing, ∀ items o, Moves R (Node.onMedia (t.batchWrite items o))
  conditional : ∀ t, T.authority = some t → ∀ ws o,
    Moves R (Node.onMedia (t.batchWriteIfUnchanged ws o))
  removed : ∀ t ∈ T.removedNow, ∀ (r : Topology.Removal) k, Moves R (Node.onMedia (r.point t k))
  batchRemoved : ∀ t ∈ T.removedNow, ∀ (r : Topology.Removal) ks,
    Moves R (Node.onMedia (r.batch t ks))
  probed : T.authority = none → ∀ t ∈ T.components, ∀ ks, Moves R (Node.onMedia (t.batchExists ks))
  sync : ∀ t ∈ T.dependents, ∀ what op policy, Moves R (T.syncOne t what op policy)
  syncRemoval : ∀ t ∈ T.removedAfterCommit, ∀ what (r : Topology.Removal) ks policy,
    Moves R (T.syncOne t what (r.batchOp ks) policy) ∧
      ∀ k, Moves R (T.syncOne t what (r.pointOp k) policy)

namespace OpSteps

variable {T : Topology S K V P} {R : Node S K V P → Node S K V P → Prop}

theorem reflInst (h : OpSteps T R) : Std.Refl R := ⟨h.refl⟩

theorem transInst (h : OpSteps T R) : IsTrans (Node S K V P) R := ⟨h.trans⟩

/-- Moving along `R` is a kind of program. -/
theorem writers (h : OpSteps T R) : Writers T (Moves R) where
  closed := by
    have := h.reflInst
    have := h.transInst
    exact moves_closed R
  write t ht k v o := moves_onMedia_runCommitting (h.write t ht k v o) _ _
  batchWrite t ht items o := moves_onMedia_runCommitting (h.batchWrite t ht items o) _ _
  conditional t ha ws o := moves_onMedia_runCommitting (h.conditional t ha ws o) _ _
  removed := h.removed
  batchRemoved := h.batchRemoved
  probed := h.probed
  sync t ht what op := h.sync t ht what op none
  syncRemoval t ht what r ks := h.syncRemoval t ht what r ks none

/-- Every operation of the store moves the node along the relation. -/
theorem op (h : OpSteps T R) (typeName : String) (op : RecordOp K V) :
    Moves R (op.run (T.store typeName)) := h.writers.op typeName op

/-- What an operation queues, it queues for one of the topology's own targets. -/
def QueuesOwn (T : Topology S K V P) (n n' : Node S K V P) : Prop :=
  (∀ q ∈ n.syncs, q.target ∈ T.all) → ∀ q ∈ n'.syncs, q.target ∈ T.all

theorem syncOne_queuesOwn (T : Topology S K V P) {t : AnyTarget S K V P} (ht : t ∈ T.all)
    (what : String) (op : SyncOp K V) (policy : Option SyncPolicy) :
    Moves (QueuesOwn T) (T.syncOne t what op policy) := by
  intro n hn
  unfold Topology.syncOne Topology.runSync
  split
  · intro q hq
    rcases List.mem_append.mp hq with hq | hq
    · exact hn q hq
    · rw [List.mem_singleton.mp hq]; exact ht
  · exact hn

theorem mem_dependents {T : Topology S K V P} {t : AnyTarget S K V P} :
    t ∈ T.dependents ↔ t ∈ T.all ∧ t.role = .dependent := by
  simp [Topology.dependents, Topology.byRole]

theorem mem_components {T : Topology S K V P} {t : AnyTarget S K V P} (h : t ∈ T.components) :
    t ∈ T.all ∧ t.role = .component := by
  obtain ⟨ht, hr⟩ := List.mem_filter.mp h
  exact ⟨List.mem_append_right _ ht, by simpa using hr⟩

theorem mem_removedAfterCommit {T : Topology S K V P} {t : AnyTarget S K V P}
    (h : t ∈ T.removedAfterCommit) :
    t ∈ T.all ∧ (t.role = .component ∨ t.role = .dependent) := by
  unfold Topology.removedAfterCommit at h
  split at h
  · exact ⟨(mem_dependents.mp h).1, .inr (mem_dependents.mp h).2⟩
  · rcases List.mem_append.mp h with h | h
    · exact ⟨(mem_components h).1, .inl (mem_components h).2⟩
    · exact ⟨(mem_dependents.mp h).1, .inr (mem_dependents.mp h).2⟩

theorem queuesOwn (T : Topology S K V P) : OpSteps T (QueuesOwn T) where
  refl _ h := h
  trans _ _ _ h h' hn := h' (h hn)
  write _ _ _ _ _ _ h := h
  batchWrite _ _ _ _ _ h := h
  conditional _ _ _ _ _ h := h
  removed _ _ _ _ _ h := h
  batchRemoved _ _ _ _ _ h := h
  probed _ _ _ _ _ h := h
  sync _ ht _ _ _ := syncOne_queuesOwn T (mem_dependents.mp ht).1 _ _ _
  syncRemoval _ ht _ _ _ _ :=
    ⟨syncOne_queuesOwn T (mem_removedAfterCommit ht).1 _ _ _,
      fun _ => syncOne_queuesOwn T (mem_removedAfterCommit ht).1 _ _ _⟩

end OpSteps

end OpSteps

/-! ## Flushing and discarding -/

section Flush

variable {S K V P : Type}

theorem flushQueue_moves {R : S → S → Prop} [Std.Refl R] [IsTrans S R]
    (qs : List (Queued S K V P)) (h : ∀ q ∈ qs, Moves R q.run) (position : Nat)
    (failures : List (String × Exn)) : Moves R (Topology.flushQueue qs position failures) := by
  induction qs generalizing position failures with
  | nil => exact Moves.pure _
  | cons q qs ih =>
    have ih' := ih fun x hx => h x (List.mem_cons_of_mem _ hx)
    refine Moves.bind (Moves.attempt (moves_settle (h q (by simp)) _ _ _ _ _)) fun r => ?_
    split
    · exact ih' _ _
    · exact ih' _ _
    · exact Moves.raise _

theorem flushAll_moves {R : S → S → Prop} [Std.Refl R] [IsTrans S R] (flushes : List (M S Unit))
    (h : ∀ f ∈ flushes, Moves R f) (failures : List (String × Exn)) :
    Moves R (flushAll flushes failures) := by
  induction flushes generalizing failures with
  | nil => exact Moves.pure _
  | cons f fs ih =>
    have ih' := ih fun x hx => h x (List.mem_cons_of_mem _ hx)
    refine Moves.bind (Moves.attempt (h f (by simp))) fun r => ?_
    split
    · exact ih' _
    · exact ih' _
    · exact Moves.raise _

theorem flushEach_moves {R : S → S → Prop} [Std.Refl R] [IsTrans S R] (flushes : List (M S Unit))
    (h : ∀ f ∈ flushes, Moves R f) : Moves R (flushEach flushes) :=
  (flushAll_moves flushes h []).bind fun _ => Moves.when (Moves.raise _)

/-- A flush of a node's own queue runs what was queued, and clears the queue. -/
theorem flushSyncs_after (n : Node S K V P) :
    (Topology.flushSyncs n).2 = ⟨(Topology.flushQueue n.syncs 0 [] n.media).2, []⟩ := by
  unfold Topology.flushSyncs
  simp only [bind_apply, read_apply, modify_apply, Node.onMedia_apply]
  rcases h : Topology.flushQueue n.syncs 0 [] n.media with ⟨_ | failures, s⟩
  · rfl
  · simp only
    unfold Prog.when
    split <;> rfl

variable [DecidableEq K]

/-- A flush of a node and what lies beneath it: along `R` from operation to operation of
    the queue and from child to child. The node's own queue is empty afterwards. -/
theorem flush_after (T : Topology S K V P) {R : S → S → Prop} [Std.Refl R] [IsTrans S R]
    (n : Node S K V P) (hq : ∀ q ∈ n.syncs, Moves R q.run)
    (hc : ∀ c ∈ T.children, Moves R c.flushIndexSyncs) :
    R n.media (T.flush n).2.media ∧ (T.flush n).2.syncs = [] := by
  have hchild : Moves R (flushEach (T.children.map fun c => c.flushIndexSyncs)) := by
    refine flushEach_moves _ fun f hf => ?_
    obtain ⟨c, hcm, rfl⟩ := List.mem_map.mp hf
    exact hc c hcm
  let R' : Node S K V P → Node S K V P → Prop := fun a b => R a.media b.media ∧ (a.syncs = [] → b.syncs = [])
  have hR' : Std.Refl R' := ⟨fun a => ⟨Std.Refl.refl _, id⟩⟩
  have hT' : IsTrans _ R' := ⟨fun a b c h h' => ⟨IsTrans.trans _ _ _ h.1 h'.1, h'.2 ∘ h.2⟩⟩
  have hfirst := flushSyncs_after n
  have hmove : R n.media (Topology.flushSyncs n).2.media := by
    rw [hfirst]
    exact flushQueue_moves _ hq _ _ _
  have hrest : Moves R' (Node.onMedia (flushEach (T.children.map fun c => c.flushIndexSyncs))) :=
    fun a => ⟨hchild a.media, id⟩
  have hlast := fun fs => flushAll_moves [Node.onMedia (flushEach
    (T.children.map fun c => c.flushIndexSyncs))] (fun f hf => by
      rw [List.mem_singleton.mp hf]; exact hrest) fs
  have hend : R' (Topology.flushSyncs n).2 (T.flush n).2 := by
    unfold Topology.flush flushAll
    rw [bind_assoc, bind_ok (attempt_apply _ n)]
    refine Moves.bind ?_ (fun _ => Moves.when (Moves.raise _)) _
    split
    · exact hlast _
    · exact hlast _
    · exact Moves.raise _
  exact ⟨IsTrans.trans _ _ _ hmove hend.1, hend.2 (by rw [hfirst])⟩

/-- A discard empties the queue, and goes along `R` from child to child. -/
theorem discard_after (T : Topology S K V P) {R : S → S → Prop} [Std.Refl R] [IsTrans S R]
    (n : Node S K V P) (hc : ∀ c ∈ T.children, Moves R c.discardIndexSyncs) :
    R n.media (T.discard n).2.media ∧ (T.discard n).2.syncs = [] := by
  have hm : Moves R (forM T.children fun c => c.discardIndexSyncs) := Moves.forM hc
  exact ⟨hm n.media, rfl⟩

/-- Over any run, what waits in the queue waits for one of the topology's targets. -/
theorem runActs_queuesOwn (T : Topology S K V P) (typeName : String) (acts : List (Act K V))
    (n : Node S K V P) (hn : n.syncs = []) :
    ∀ q ∈ (runActs (T.store typeName) acts n).syncs, q.target ∈ T.all := by
  refine runActs_induction (fun n : Node S K V P => ∀ q ∈ n.syncs, q.target ∈ T.all) acts ?_
    (by simp [hn])
  intro a _ n hn
  have : Std.Refl fun _ _ : S => True := ⟨fun _ => trivial⟩
  have : IsTrans S fun _ _ => True := ⟨fun _ _ _ _ _ => trivial⟩
  have anywhere : ∀ m : M S Unit, Moves (fun _ _ => True) m := fun _ _ => trivial
  cases a with
  | op o => exact (OpSteps.queuesOwn T).op typeName o n hn
  | flush =>
    have h := (flush_after T n (fun q _ => anywhere q.run) fun c _ => anywhere _).2
    show ∀ q ∈ (T.flush n).2.syncs, _
    simp [h]
  | discard =>
    have h := (discard_after T n fun c _ => anywhere _).2
    show ∀ q ∈ (T.discard n).2.syncs, _
    simp [h]

end Flush

end Kvtsjl
