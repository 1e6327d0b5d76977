import Kvtsjl.Composition
import Kvtsjl.CommitOrder
import Kvtsjl.WholeTarget

/-
  A conditional write that reaches a composition through a view or a parent.
  Either wrapper passes the expected version down and leaves the record seen behind.
  The composition then takes every part of the record for changed. A parent also turns
  what the composition refuses before its commit point into a failure of that commit.
  `conditional_closed` says for which batches neither shows.
-/

namespace Kvtsjl

open Assoc (Dict)
open Effects Prog
open OpSteps (mem_dependents mem_components mem_removedAfterCommit)
open Topology (get?_putsOf get?_storedPuts)

/-! ## The batch a wrapper passes on -/

section Unseen

variable {S K V P : Type} [DecidableEq K]

/-- The write through a value view, made on the store behind it. -/
def behindView {T U : Type} (inverse : U → T) (w : ConditionalWrite U) : ConditionalWrite T :=
  ⟨⟨w.seen.value.map inverse, w.seen.version⟩,
    match w.change with
    | .put u => .put (inverse u)
    | .remove => .remove,
    w.createdAt⟩

omit [DecidableEq K] in
/-- A value view passes on the batch behind it, unseen. -/
theorem unseen_behindView {T U : Type} (inverse : U → T) (writes : Dict K (ConditionalWrite U)) :
    unseen (writes.map fun _ w => behindView inverse w) =
      writes.map fun _ w => inverseWrite inverse w := by
  unfold unseen
  rw [Dict.map_map]
  rfl

/-- The target decides by the version alone. -/
def Blind (t : Target S K V P) : Prop :=
  ∀ writes o, t.batchWriteIfUnchanged (unseen writes) o = t.batchWriteIfUnchanged writes o

/-- The target is of one of the kinds a composition is made of. -/
inductive Target.Kind : Target S K V P → Prop
  | keyMap {T : Type} [DecidableEq T] (d : Declared) (m : KeyMap S K T) (slot : V → Option T)
      (up : T → P) (node : List (SyncNode S)) : Kind (keyMapTarget d m slot up node)
  | store {T : Type} [DecidableEq T] (d : Declared) (s : KvStore S K T) (slot : V → Option T)
      (up : T → P) : Kind (storeTarget d s slot up)
  | indexes (is : List (Index S K V)) (policy : SyncPolicy) : Kind (indexesTarget is policy)

omit [DecidableEq K] in
theorem collect_unseen {β : Type} (f : K → ConditionalWrite V → Option β)
    (hf : ∀ k w, f k { w with seen := ⟨none, w.seen.version⟩ } = f k w)
    (writes : Dict K (ConditionalWrite V)) : (unseen writes).collect f = writes.collect f := by
  unfold unseen
  rw [Dict.collect_map]
  simp only [hf]

omit [DecidableEq K] in
theorem blind_keyMapTarget {T : Type} [DecidableEq T] (d : Declared) (m : KeyMap S K T)
    (slot : V → Option T) (up : T → P) (node : List (SyncNode S)) :
    Blind (keyMapTarget d m slot up node) := by
  intro writes o
  have hslot : ∀ w : ConditionalWrite V,
      slottedWrite slot { w with seen := ⟨none, w.seen.version⟩ } = slottedWrite slot w :=
    fun w => by unfold slottedWrite; rfl
  show (if _ then _ else _) = (if _ then _ else _)
  rw [collect_unseen _ (fun _ w => by rw [hslot]), collect_unseen _ (fun _ w => hslot w)]

theorem Target.Kind.blind {t : Target S K V P} (h : t.Kind) : Blind t := by
  cases h with
  | keyMap d m slot up node => exact blind_keyMapTarget d m slot up node
  | store d s slot up => exact blind_keyMapTarget d s.toKeyMap slot up [s.toSyncNode]
  | indexes is policy => exact fun _ _ => rfl

omit [DecidableEq K] in
/-- What a batch asks of its targets, but for the records it has seen. -/
theorem putsOf_unseen (writes : Dict K (ConditionalWrite V)) :
    Topology.putsOf (unseen writes) = Topology.putsOf writes :=
  collect_unseen _ (fun _ _ => rfl) writes

omit [DecidableEq K] in
theorem keys_unseen (writes : Dict K (ConditionalWrite V)) :
    (unseen writes).keys = writes.keys := Dict.keys_map _ _

theorem clockOf_unseen (writes : Dict K (ConditionalWrite V)) :
    Topology.clockOf (unseen writes) = Topology.clockOf writes := by
  funext k
  unfold Topology.clockOf
  rw [get?_unseen]
  cases writes.get? k <;> rfl

theorem byClock_unseen (values : Dict K V) (writes : Dict K (ConditionalWrite V)) :
    Topology.byClock values (unseen writes) = Topology.byClock values writes := by
  have hf : Topology.fileUnder (V := V) (unseen writes) = Topology.fileUnder writes := by
    funext groups e
    unfold Topology.fileUnder
    rw [clockOf_unseen]
  unfold Topology.byClock
  rw [hf]

theorem removedKeys_unseen (writes : Dict K (ConditionalWrite V)) (written : Finset K) :
    Topology.removedKeys (unseen writes) written = Topology.removedKeys writes written := by
  unfold Topology.removedKeys
  rw [keys_unseen, putsOf_unseen]

theorem storedPuts_unseen (writes : Dict K (ConditionalWrite V)) (written : Finset K) :
    Topology.storedPuts (unseen writes) written = Topology.storedPuts writes written := by
  unfold Topology.storedPuts
  rw [putsOf_unseen]

omit [DecidableEq K] in
theorem received_unseen {R : Type} (t : Target S K V R) (writes : Dict K (ConditionalWrite V)) :
    Topology.received t (unseen writes) = unseen (Topology.received t writes) := by
  unfold Topology.received unseen
  split
  · rfl
  · rw [Dict.map_map, Dict.map_map]

end Unseen

/-! ## Where the records seen make no difference -/

section Replaces

variable {S K V P : Type} [DecidableEq K]

/-- The batch puts a record in the place of one that is stored. -/
def Replaces (writes : Dict K (ConditionalWrite V)) (k : K) (before after : V) : Prop :=
  ∃ w, writes.get? k = some w ∧ w.seen.value = some before ∧ w.seen.version.isSome ∧
    w.change = .put after

/-- The authority, asked at `s`, writes the key. -/
def Accepts (T : Topology S K V P) (writes : Dict K (ConditionalWrite V)) (o : WriteOptions)
    (s : S) (k : K) : Prop :=
  ∃ t written s', T.authority = some t ∧
    t.batchWriteIfUnchanged (Topology.received t writes) o s = (.ok written, s') ∧ k ∈ written

/-- A record is only replaced where there are no components, and where the authority
    agrees to it, by one that changes every dependent. -/
def ReplacesWhole (T : Topology S K V P) (writes : Dict K (ConditionalWrite V)) (o : WriteOptions)
    (s : S) : Prop :=
  ∀ k before after, Replaces writes k before after → T.components = [] ∧
    (Accepts T writes o s k → ∀ t ∈ T.dependents, t.holdsSame before after = false)

/-- A target's share of a batch does not depend on the records seen, unless one of the
    records replaced is the same there. -/
theorem changed_unseen (t : AnyTarget S K V P) (writes : Dict K (ConditionalWrite V))
    {puts : Dict K V} (hputs : ∀ k v, puts.get? k = some v →
      (Topology.putsOf writes).get? k = some v)
    (h : ∀ k before after, Replaces writes k before after → puts.get? k = some after →
      t.holdsSame before after = false) :
    Topology.changed t puts (unseen writes) = Topology.changed t puts writes := by
  refine Dict.filter_congr fun k v hv => ?_
  obtain ⟨w, hw, hc⟩ := get?_putsOf.mp (hputs k v hv)
  have hseen : Topology.changes t w.seen v = true := by
    unfold Topology.changes
    split
    · rfl
    · next before hb =>
      cases hver : w.seen.version with
      | none => rfl
      | some ver =>
        have hsame := h k before v ⟨w, hw, hb, by rw [hver]; rfl, hc⟩ hv
        rw [hsame]; rfl
  rw [get?_unseen, hw, Option.map_some, Option.map_some, Option.map_some, hseen]
  rfl

/-- What follows the authority's answer is the same for the batch unseen. -/
theorem afterConditional_unseen (T : Topology S K V P) (writes : Dict K (ConditionalWrite V))
    (o : WriteOptions) (written : Finset K)
    (h : ∀ k before after, Replaces writes k before after → k ∈ written →
      ∀ t ∈ T.dependents, t.holdsSame before after = false) :
    T.afterConditional (unseen writes) o written = T.afterConditional writes o written := by
  unfold Topology.afterConditional
  rw [removedKeys_unseen]
  refine congrArg _ (funext fun _ => ?_)
  refine forM_congr fun t ht => ?_
  unfold Topology.syncChanged
  rw [storedPuts_unseen, changed_unseen t writes, byClock_unseen]
  · intro k v hv
    exact (get?_storedPuts.mp hv).1
  · intro k before after hr hk
    exact h k before after hr (get?_storedPuts.mp hk).2 t ht

/-- A component loop asks the same of each component where no record is replaced. -/
theorem components_unseen (T : Topology S K V P) (writes : Dict K (ConditionalWrite V))
    (o : WriteOptions) (h : T.components = [] ∨ ∀ k before after, ¬ Replaces writes k before after) :
    T.replaced (unseen writes) = T.replaced writes ∧
      (forM T.components (Topology.batchWriteChanged (unseen writes) o) :
        M (Node S K V P) PUnit) = forM T.components (Topology.batchWriteChanged writes o) := by
  rcases h with h | h
  · unfold Topology.replaced
    rw [h]
    exact ⟨rfl, rfl⟩
  · have hch : ∀ t : AnyTarget S K V P, Topology.changed t (Topology.putsOf writes) (unseen writes) =
        Topology.changed t (Topology.putsOf writes) writes := fun t =>
      changed_unseen t writes (fun _ _ hv => hv) fun k before after hr => absurd hr (h k before after)
    have hver : ∀ items : Dict K V, Topology.versioned (unseen writes) items =
        Topology.versioned writes items := by
      intro items
      unfold Topology.versioned
      congr 1
      funext k
      rw [get?_unseen]
      cases writes.get? k <;> rfl
    constructor
    · unfold Topology.replaced
      simp only [putsOf_unseen, hch, hver]
    · refine forM_congr fun t _ => ?_
      unfold Topology.batchWriteChanged
      rw [putsOf_unseen, hch, byClock_unseen]

theorem accepts_of_run {T : Topology S K V P} {writes : Dict K (ConditionalWrite V)}
    {o : WriteOptions} {n n' : Node S K V P} {a : AnyTarget S K V P} {written : Finset K} {k : K}
    (ha : T.authority = some a)
    (hrun : Node.onMedia (runCommitting a.name a.role
      (a.batchWriteIfUnchanged (Topology.received a writes) o)) n = (.ok written, n'))
    (hk : k ∈ written) : Accepts T writes o n.media k := by
  rw [Node.onMedia_apply] at hrun
  obtain ⟨h1, -⟩ := Prod.mk.inj hrun
  exact ⟨a, written, _, ha, runCommitting_ok (Prod.ext h1 rfl), hk⟩

/-- Made unseen, a batch that replaces whole records does what it does as it is. -/
theorem batch_unseen {T : Topology S K V P} {writes : Dict K (ConditionalWrite V)}
    {o : WriteOptions} {n : Node S K V P} (hblind : ∀ t, T.authority = some t → Blind t)
    (h : ReplacesWhole T writes o n.media) :
    T.batchWriteIfUnchanged (unseen writes) o n = T.batchWriteIfUnchanged writes o n := by
  have hcomp : T.components = [] ∨ ∀ k before after, ¬ Replaces writes k before after := by
    by_cases hr : ∃ k before after, Replaces writes k before after
    · obtain ⟨k, before, after, hr⟩ := hr
      exact .inl (h k before after hr).1
    · exact .inr fun k before after hk => hr ⟨k, before, after, hk⟩
  obtain ⟨hrep, hloop⟩ := components_unseen T writes o hcomp
  unfold Topology.batchWriteIfUnchanged Topology.requireAuthority
  rw [hrep]
  cases ha : T.authority with
  | none => rfl
  | some a =>
  simp only [pure_bind]
  split
  · rfl
  rw [hloop, received_unseen, hblind a ha]
  rcases hcomp with hnil | hnone
  · simp only [hnil, List.forM_nil, pure_bind]
    refine bind_congr_at fun written n' hrun => ?_
    rw [afterConditional_unseen T writes o written fun k before after hr hk =>
      (h k before after hr).2 (accepts_of_run ha hrun hk)]
  · have hafter : ∀ written, T.afterConditional (unseen writes) o written =
        T.afterConditional writes o written := fun written =>
      afterConditional_unseen T writes o written fun k before after hr =>
        absurd hr (hnone k before after)
    simp only [hafter]

end Replaces

/-! ## Where they do -/

section Noticed

variable {S K V P : Type} [DecidableEq K]

/-- What the target raises stops nothing that follows the commit point. -/
def Quiet (t : AnyTarget S K V P) : Prop :=
  ∀ (op : SyncOp K V) s e, (op.on t s).1 = .error e → t.policy = .bestEffort ∧ ¬ e.isUnsupported

/-- The key was put at the place, or waits to be put to the target. -/
def Reached (i : Nat) (t : AnyTarget (Logged S K) K V P) (k : K) (l : List (Event K))
    (q : List (Queued (Logged S K) K V P)) : Prop :=
  (∃ e ∈ l, e.place = i ∧ k ∈ e.put) ∨ ∃ x ∈ q, x.target = t ∧ k ∈ x.op.puts

omit [DecidableEq K] in
theorem Reached.append {i : Nat} {t : AnyTarget (Logged S K) K V P} {k : K}
    (l l' l'' : List (Event K)) (q q' q'' : List (Queued (Logged S K) K V P))
    (h : Reached i t k l' q') : Reached i t k (l ++ (l' ++ l'')) (q ++ (q' ++ q'')) := by
  rcases h with ⟨e, he, h⟩ | ⟨x, hx, h⟩
  · exact .inl ⟨e, by simp [he], h⟩
  · exact .inr ⟨x, by simp [hx], h⟩

omit [DecidableEq K] in
theorem settle_quiet {t : AnyTarget S K V P} (ht : Quiet t) (op : SyncOp K V)
    (name what : String) (beforeCommit : Bool) (s : S) :
    (settle name what t.policy beforeCommit () (op.on t) s).1 = .ok () := by
  unfold settle
  rcases hm : op.on t s with ⟨e | u, s'⟩
  · have hq := ht op s e (by rw [hm])
    rw [catching_error hm, if_pos hq]
    rfl
  · rw [catching_ok hm]

/-- A sync reaches its own target with its own keys, and no other. -/
theorem emits_syncOne_at (T : Topology (Logged S K) K V P) {i : Nat}
    {t : AnyTarget (Logged S K) K V P} (h : LogsAt i t) (what : String) (op : SyncOp K V) :
    Emits events waiting (T.syncOne t what op none) fun r l q =>
      (∀ e ∈ l, e.place = i ∧ e.put = op.puts) ∧ (∀ x ∈ q, x.target = t ∧ x.op = op) ∧
        (Quiet t → r = .ok () ∧ ∀ k ∈ op.puts, Reached i t k l q) := by
  unfold Topology.syncOne Topology.runSync
  split
  · intro n
    refine ⟨[], [⟨t.name, what, t.policy, t, op⟩], by simp [Node.enqueue_apply], rfl, by simp,
      by simp, fun _ => ⟨rfl, fun k hk => .inr ?_⟩⟩
    exact ⟨_, List.mem_singleton.mpr rfl, rfl, hk⟩
  · intro n
    obtain ⟨l, q, hl, hq, hq0, r0, hr⟩ := emits_settle (h.on op) t.name what t.policy T.deferred () n
    refine ⟨l, q, hl, hq, ?_, by simp [hq0], ?_⟩
    · intro e he
      rw [hr, List.mem_singleton] at he
      rw [he]
      cases r0 <;> exact ⟨rfl, rfl⟩
    · intro ht
      refine ⟨settle_quiet ht op t.name what T.deferred n.media, fun k hk => .inl ?_⟩
      rw [hr]
      refine ⟨_, List.mem_singleton.mpr rfl, wholeEvent_place _ _ _ _ _, ?_⟩
      cases r0 <;> exact hk

theorem get?_changed {t : AnyTarget S K V P} {puts : Dict K V}
    {writes : Dict K (ConditionalWrite V)} {k : K} {v : V} :
    (Topology.changed t puts writes).get? k = some v ↔
      puts.get? k = some v ∧ ∃ w, writes.get? k = some w ∧ Topology.changes t w.seen v = true := by
  unfold Topology.changed
  rw [Dict.get?_filter, Option.filter_eq_some_iff]
  cases writes.get? k <;> simp

/-- Unseen, every record stored reaches every dependent. -/
theorem afterConditional_reaches {T : Topology S K V P} {writes : Dict K (ConditionalWrite V)}
    {o : WriteOptions} {written : Finset K} {k : K} {v : V}
    {t : AnyTarget (Logged S K) K V P} {i : Nat} (hi : LogsAt i t) (ht : t ∈ T.tagged.dependents)
    (hcomp : T.tagged.components = []) (hquiet : ∀ u ∈ T.tagged.dependents, Quiet u)
    (hk : (Topology.storedPuts writes written).get? k = some v) :
    Emits events waiting (T.tagged.afterConditional (unseen writes) o written) fun _ l q =>
      Reached i t k l q := by
  have hone : ∀ u ∈ T.tagged.dependents, ∀ what (op : SyncOp K V),
      Emits events waiting (T.tagged.syncOne u what op none) fun r _ _ => r = .ok () := by
    intro u hu what op
    obtain ⟨j, hj, -⟩ := tagged_place (mem_dependents.mp hu).1
    exact (emits_syncOne_at T.tagged hj what op).weaken fun r l q h => (h.2.2 (hquiet u hu)).1
  have hloop : ∀ {α : Type} (xs : List α) (f : α → M (Node (Logged S K) K V P) PUnit),
      (∀ x ∈ xs, Emits events waiting (f x) fun r _ _ => r = .ok ⟨⟩) →
      Emits events waiting (forM xs f) fun r _ _ => r = .ok ⟨⟩ := by
    intro α xs f hf
    induction xs with
    | nil => exact Emits.pure _ rfl
    | cons x xs ih =>
      rw [List.forM_cons]
      refine (hf x (by simp)).bind ?_ ?_
      · exact fun _ _ _ _ => ih fun y hy => hf y (by simp [hy])
      · intro e l q h
        cases h
  have hremoved : ∀ u ∈ T.tagged.removedAfterCommit, u ∈ T.tagged.dependents := by
    intro u hu
    unfold Topology.removedAfterCommit at hu
    rw [hcomp, List.nil_append, ite_self] at hu
    exact hu
  unfold Topology.afterConditional
  refine Emits.bind (Q := fun r _ _ => r = .ok ⟨⟩) ?_ ?_ ?_
  · refine Emits.when (hloop _ _ fun u hu => hone u (hremoved u hu) _ _) rfl
  · intro _ l q _
    refine (emits_forM_reaches (Reached i t k) (fun _ _ _ _ _ _ h => h.append _ _ _ _ _ _)
      (fun u hu => hloop _ _ fun g _ => hone u hu _ _) ht ?_).weaken ?_
    · obtain ⟨hput, hw⟩ := get?_storedPuts.mp hk
      obtain ⟨w, hwk, -⟩ := get?_putsOf.mp hput
      have hch : (Topology.changed t (Topology.storedPuts (unseen writes) written)
          (unseen writes)).get? k = some v := by
        rw [storedPuts_unseen, get?_changed, get?_unseen, hwk]
        exact ⟨hk, _, rfl, rfl⟩
      have hfiled : ∃ g ∈ Topology.byClock (Topology.changed t
          (Topology.storedPuts (unseen writes) written) (unseen writes)) (unseen writes),
          g.1 = Topology.clockOf (unseen writes) k ∧ g.2.get? k = some v :=
        Topology.exists_byClock hch
      obtain ⟨g, hg, -, hgk⟩ := hfiled
      refine emits_forM_reaches (Reached i t k) (fun _ _ _ _ _ _ h => h.append _ _ _ _ _ _)
        (fun g _ => hone t ht _ _) hg ?_
      refine (emits_syncOne_at T.tagged hi _ _).weaken fun r l q h => ?_
      obtain ⟨hr, hreach⟩ := h.2.2 (hquiet t ht)
      exact ⟨hr, hreach k (Dict.mem_keys.mpr ⟨v, hgk⟩)⟩
    · rintro r l' q' ⟨-, h⟩
      have := h.append l l' [] q q' []
      simpa using this
  · intro e l q h
    cases h

/-- What follows the authority's answer adds what its syncs add. -/
theorem afterConditional_adds (T : Topology (Logged S K) K V P)
    (writes : Dict K (ConditionalWrite V)) (o : WriteOptions) (written : Finset K)
    (A : Event K → Prop) (B : Queued (Logged S K) K V P → Prop)
    (hremove : ∀ t ∈ T.removedAfterCommit, Emits events waiting
      (T.syncOne t "batch delete" (.batchDelete (Topology.removedKeys writes written)) none)
      fun _ l q => (∀ e ∈ l, A e) ∧ ∀ x ∈ q, B x)
    (hstore : ∀ t ∈ T.dependents,
      ∀ g ∈ Topology.byClock (Topology.changed t (Topology.storedPuts writes written) writes) writes,
      Emits events waiting (T.syncOne t "batch set" (.batchWrite g.2 ⟨o.ttl, g.1⟩) none)
        fun _ l q => (∀ e ∈ l, A e) ∧ ∀ x ∈ q, B x) :
    Emits events waiting (T.afterConditional writes o written) fun _ l q =>
      (∀ e ∈ l, A e) ∧ ∀ x ∈ q, B x := by
  have hloop : ∀ {α : Type} (xs : List α) (f : α → M (Node (Logged S K) K V P) PUnit),
      (∀ x ∈ xs, Emits events waiting (f x) fun _ l q => (∀ e ∈ l, A e) ∧ ∀ x ∈ q, B x) →
      Emits events waiting (forM xs f) fun _ l q => (∀ e ∈ l, A e) ∧ ∀ x ∈ q, B x := by
    intro α xs f hf
    refine (Emits.forM A B (fun _ _ => True) (by simp) fun x hx => ?_).weaken
      fun r l q h => ⟨h.1, h.2.1⟩
    exact (hf x hx).weaken fun r l q h => ⟨h.1, h.2, fun _ => trivial⟩
  refine (Emits.when (hloop _ _ hremove) (by simp)).bind ?_ fun e l q h => h
  intro _ l q h
  refine (hloop _ _ fun t ht => hloop _ _ (hstore t ht)).weaken fun r l' q' h' => ⟨?_, ?_⟩
  · exact fun e he => (List.mem_append.mp he).elim (h.1 e) (h'.1 e)
  · exact fun x hx => (List.mem_append.mp hx).elim (h.2 x) (h'.2 x)

/-- A dependent a record does not change is not reached with it. -/
theorem afterConditional_spares {T : Topology S K V P} {writes : Dict K (ConditionalWrite V)}
    {o : WriteOptions} {written : Finset K} {k : K}
    {t : AnyTarget (Logged S K) K V P} {i : Nat} (hget : T.tagged.all[i]? = some t)
    (hk : (Topology.changed t (Topology.storedPuts writes written) writes).get? k = none) :
    Emits events waiting (T.tagged.afterConditional writes o written) fun _ l q =>
      ¬ Reached i t k l q := by
  have hstep : ∀ u ∈ T.tagged.all, ∀ what (op : SyncOp K V), (u = t → k ∉ op.puts) →
      Emits events waiting (T.tagged.syncOne u what op none) fun _ l q =>
        (∀ e ∈ l, ¬ (e.place = i ∧ k ∈ e.put)) ∧ ∀ x ∈ q, ¬ (x.target = t ∧ k ∈ x.op.puts) := by
    intro u hu what op hop
    obtain ⟨j, hj, hgetj⟩ := tagged_place hu
    refine (emits_syncOne_at T.tagged hj what op).weaken ?_
    rintro r l q ⟨h1, h2, -⟩
    constructor
    · rintro e he ⟨hpl, hput⟩
      obtain ⟨hj', hput'⟩ := h1 e he
      have hij : j = i := hj'.symm.trans hpl
      rw [hij, hget] at hgetj
      rw [hput'] at hput
      exact hop (Option.some.inj hgetj).symm hput
    · rintro x hx ⟨htx, hput⟩
      obtain ⟨hu', hop'⟩ := h2 x hx
      rw [hop'] at hput
      exact hop (hu'.symm.trans htx) hput
  refine (afterConditional_adds T.tagged writes o written (fun e => ¬ (e.place = i ∧ k ∈ e.put))
    (fun x => ¬ (x.target = t ∧ k ∈ x.op.puts)) (fun u hu => ?_) fun u hu g hg => ?_).weaken ?_
  · exact hstep u (mem_removedAfterCommit hu).1 _ _ fun _ hkm => by cases hkm
  · refine hstep u (mem_dependents.mp hu).1 _ _ ?_
    rintro rfl hkm
    obtain ⟨v, hv⟩ := Dict.mem_keys.mp hkm
    rw [(Topology.mem_byClock hg hv).1] at hk
    cases hk
  · rintro r l q ⟨h1, h2⟩ (⟨e, he, h⟩ | ⟨x, hx, h⟩)
    · exact h1 e he h
    · exact h2 x hx h

/-- Unseen, a record put against a version replaces every component. -/
theorem replaced_versioned {T : Topology S K V P} {writes : Dict K (ConditionalWrite V)} {k : K}
    {w : ConditionalWrite V} {after : V} (hw : writes.get? k = some w) (hver : w.seen.version.isSome)
    (hc : w.change = .put after) (hcomp : T.components ≠ []) : T.replaced (unseen writes) ≠ [] := by
  obtain ⟨t, ts, ht⟩ := List.exists_cons_of_ne_nil hcomp
  have hch : (Topology.changed t (Topology.putsOf writes) (unseen writes)).get? k = some after := by
    rw [get?_changed, get?_unseen, hw]
    exact ⟨get?_putsOf.mpr ⟨w, hw, hc⟩, _, rfl, rfl⟩
  have hversioned : Topology.versioned (unseen writes)
      (Topology.changed t (Topology.putsOf (unseen writes)) (unseen writes)) = true := by
    rw [putsOf_unseen]
    refine List.any_eq_true.mpr ⟨k, Dict.mem_keys.mpr ⟨after, hch⟩, ?_⟩
    rw [get?_unseen, hw]
    exact hver
  unfold Topology.replaced
  rw [ht]
  simp [hversioned]

/-- What is refused of a batch is refused of it unseen. -/
theorem replaced_unseen {T : Topology S K V P} {writes : Dict K (ConditionalWrite V)}
    (h : T.replaced writes ≠ []) : T.replaced (unseen writes) ≠ [] := by
  unfold Topology.replaced at h
  rw [ne_eq, List.map_eq_nil_iff] at h
  obtain ⟨t, ht⟩ := List.exists_mem_of_ne_nil _ h
  obtain ⟨hcomp, hv⟩ := List.mem_filter.mp ht
  obtain ⟨k, hk, hver⟩ := List.any_eq_true.mp hv
  obtain ⟨v, hch⟩ := Dict.mem_keys.mp hk
  obtain ⟨hput, w, hw, -⟩ := get?_changed.mp hch
  obtain ⟨w', hw', hc⟩ := get?_putsOf.mp hput
  rw [hw', Option.bind_some] at hver
  exact replaced_versioned hw' hver hc (List.ne_nil_of_mem hcomp)

/-- A batch that passes the check asks a target for something. -/
theorem emits_conditional_loud {T : Topology S K V P} {writes : Dict K (ConditionalWrite V)}
    {o : WriteOptions} (ha : T.tagged.authority ≠ none) (hrep : T.tagged.replaced writes = []) :
    Emits events waiting (T.tagged.batchWriteIfUnchanged writes o) fun _ l _ => l ≠ [] := by
  unfold Topology.batchWriteIfUnchanged Topology.requireAuthority
  cases hau : T.tagged.authority with
  | none => exact absurd hau ha
  | some a =>
  obtain ⟨i, hi, -⟩ := tagged_place (List.mem_of_find?_eq_some hau)
  simp only [pure_bind]
  rw [if_neg (not_not.mpr hrep)]
  have hcomp : Emits events waiting
      (forM T.tagged.components (Topology.batchWriteChanged writes o) :
        M (Node (Logged S K) K V P) PUnit) fun r l _ => r = .ok ⟨⟩ ∨ l ≠ [] := by
    refine emits_forM_loud fun t ht => emits_forM_loud fun g _ => ?_
    obtain ⟨j, hj, -⟩ := tagged_place (mem_components ht).1
    refine (emits_runCommitting (hj.batchWrite g.2 _) _ _).weaken ?_
    rintro r l q ⟨-, r0, rfl, -⟩
    exact .inr (by simp)
  refine hcomp.bind ?_ ?_
  · intro _ l q _
    have hauth := @emits_runCommitting S K V P _ _ _
      (hi.conditional (Topology.received a writes) o) a.name a.role
    refine hauth.bind ?_ ?_
    · rintro written l' q' ⟨-, r0, rfl, -⟩
      refine (afterConditional_adds T.tagged writes o written (fun _ => True) (fun _ => True)
        (fun u hu => ?_) fun u hu g _ => ?_).bind ?_ (by simp)
      · obtain ⟨j, hj, -⟩ := tagged_place (mem_removedAfterCommit hu).1
        exact (emits_syncOne_at T.tagged hj _ _).weaken (by simp)
      · obtain ⟨j, hj, -⟩ := tagged_place (mem_dependents.mp hu).1
        exact (emits_syncOne_at T.tagged hj _ _).weaken (by simp)
      · exact fun _ _ _ _ => Emits.pure _ (by simp)
    · rintro e l' q' ⟨-, r0, rfl, -⟩
      simp
  · rintro e l q (h | h)
    · cases h
    · exact h

/-- Nothing is noticed of a batch made unseen only if it replaces whole records. -/
theorem whole_of_same {T : Topology S K V P} {writes : Dict K (ConditionalWrite V)}
    {o : WriteOptions} {n : Node (Logged S K) K V P}
    (hblind : ∀ t, T.tagged.authority = some t → Blind t)
    (hquiet : ∀ t ∈ T.tagged.dependents, Quiet t) (hrep : T.tagged.replaced writes = [])
    (hauth : T.tagged.authority ≠ none)
    (hsame : (T.tagged.batchWriteIfUnchanged (unseen writes) o n).2 =
      (T.tagged.batchWriteIfUnchanged writes o n).2) :
    ReplacesWhole T.tagged writes o n.media := by
  intro k before after hr
  have hcomp : T.tagged.components = [] := by
    by_contra hne
    have hstop : (T.tagged.batchWriteIfUnchanged (unseen writes) o n).2 = n := by
      unfold Topology.batchWriteIfUnchanged Topology.requireAuthority
      cases ha : T.tagged.authority with
      | none => rfl
      | some a =>
        simp only [pure_bind]
        obtain ⟨w, hw, -, hver, hc⟩ := hr
        rw [if_pos (replaced_versioned hw hver hc hne)]
        rfl
    obtain ⟨l, q, hl, -, hne'⟩ := emits_conditional_loud (o := o) hauth hrep n
    rw [← hsame, hstop] at hl
    exact hne' (List.append_cancel_left ((List.append_nil _).trans hl)).symm
  refine ⟨hcomp, ?_⟩
  rintro ⟨a, written, s, ha, hrun, hk⟩ t ht
  by_contra hholds
  rw [Bool.not_eq_false] at hholds
  obtain ⟨w, hw, hv, hver, hc⟩ := hr
  obtain ⟨i, hi, hget⟩ := tagged_place (mem_dependents.mp ht).1
  have hput : (Topology.storedPuts writes written).get? k = some after :=
    get?_storedPuts.mpr ⟨get?_putsOf.mpr ⟨w, hw, hc⟩, hk⟩
  have hkept : (Topology.changed t (Topology.storedPuts writes written) writes).get? k = none := by
    rw [Option.eq_none_iff_forall_ne_some]
    intro v hch
    obtain ⟨hput', w', hw', hchanges⟩ := get?_changed.mp hch
    rw [hput] at hput'
    rw [hw] at hw'
    obtain rfl := Option.some.inj hput'
    obtain rfl := Option.some.inj hw'
    unfold Topology.changes at hchanges
    rw [hv] at hchanges
    simp [hholds, Option.isNone_iff_eq_none, Option.isSome_iff_ne_none.mp hver] at hchanges
  have hafter : ∀ ws, T.tagged.replaced ws = [] →
      a.batchWriteIfUnchanged (Topology.received a ws) o n.media = (.ok written, s) →
      (T.tagged.batchWriteIfUnchanged ws o n).2 =
        (T.tagged.afterConditional ws o written ⟨s, n.syncs⟩).2 := by
    intro ws hrws hrunws
    unfold Topology.batchWriteIfUnchanged Topology.requireAuthority
    rw [ha, pure_bind, if_neg (not_not.mpr hrws), hcomp, List.forM_nil, pure_bind]
    have hcommit : Node.onMedia (runCommitting a.name a.role
        (a.batchWriteIfUnchanged (Topology.received a ws) o)) n = (.ok written, ⟨s, n.syncs⟩) := by
      rw [Node.onMedia_apply]
      unfold runCommitting
      rw [catching_ok hrunws]
    rw [bind_ok hcommit]
    rcases h : T.tagged.afterConditional ws o written ⟨s, n.syncs⟩ with ⟨e | u, n'⟩
    · rw [bind_error h]
    · rw [bind_ok h]
      rfl
  have hnone : T.tagged.replaced (unseen writes) = [] := by
    unfold Topology.replaced
    rw [hcomp]
    rfl
  have hrunUnseen : a.batchWriteIfUnchanged (Topology.received a (unseen writes)) o n.media =
      (.ok written, s) := by
    rw [received_unseen, hblind a ha]
    exact hrun
  rw [hafter _ hnone hrunUnseen, hafter _ hrep hrun] at hsame
  obtain ⟨l, q, hl, hq, hreach⟩ :=
    afterConditional_reaches (o := o) hi ht hcomp hquiet hput ⟨s, n.syncs⟩
  obtain ⟨l', q', hl', hq', hspare⟩ :=
    afterConditional_spares (o := o) hget hkept ⟨s, n.syncs⟩
  rw [hsame] at hl hq
  have hll : l = l' := List.append_cancel_left (hl.symm.trans hl')
  have hqq : q = q' := List.append_cancel_left (hq.symm.trans hq')
  rw [hll, hqq] at hreach
  exact hspare hreach

end Noticed

/-! ## The store of a composition -/

section Stores

variable {S K V P : Type} [DecidableEq K]

/-- The store of a zip, or of any other composition. -/
def Topology.nodeStore (T : Topology S K V P) (zip : Option Zip) (typeName : String) :
    KvStore (Node S K V P) K V :=
  match zip with
  | none => T.store typeName
  | some z => z.store T typeName

/-- The topology keeps every write clock the batch carries. -/
def Clocked (T : Topology S K V P) (writes : Dict K (ConditionalWrite V)) : Prop :=
  ∀ k w, writes.get? k = some w → w.createdAt = none ∨ T.supportsWriteClock = true

theorem clocked_unseen {T : Topology S K V P} {writes : Dict K (ConditionalWrite V)} :
    Clocked T (unseen writes) ↔ Clocked T writes := by
  constructor
  · intro h k w hw
    exact h k { w with seen := ⟨none, w.seen.version⟩ } (by rw [get?_unseen, hw]; rfl)
  · intro h k w hw
    rw [get?_unseen] at hw
    obtain ⟨w', hw', rfl⟩ := Option.map_eq_some_iff.mp hw
    exact h k w' hw'

/-- What the store checks of a batch before any target sees it. -/
theorem admission {σ : Type} (T : Topology S K V P) (typeName : String) (ttl : Option TtlPolicy)
    (writes : Dict K (ConditionalWrite V)) (s : σ) :
    (Clocked T writes ∧ (forM writes.entries (fun e => T.admitWrite typeName ⟨ttl, e.2.createdAt⟩) :
        M σ PUnit) s = (.ok ⟨⟩, s)) ∨
    (¬ Clocked T writes ∧ ∃ e : Exn, e.isUnsupported = true ∧
      (forM writes.entries (fun e => T.admitWrite typeName ⟨ttl, e.2.createdAt⟩) : M σ PUnit) s =
        (.error e, s)) := by
  have hstep : ∀ es : List (K × ConditionalWrite V),
      ((∀ e ∈ es, e.2.createdAt = none ∨ T.supportsWriteClock = true) ∧
        (forM es (fun e => T.admitWrite typeName ⟨ttl, e.2.createdAt⟩) : M σ PUnit) s =
          (.ok ⟨⟩, s)) ∨
      (¬ (∀ e ∈ es, e.2.createdAt = none ∨ T.supportsWriteClock = true) ∧
        ∃ e : Exn, e.isUnsupported = true ∧
        (forM es (fun e => T.admitWrite typeName ⟨ttl, e.2.createdAt⟩) : M σ PUnit) s =
          (.error e, s)) := by
    intro es
    induction es with
    | nil => exact .inl ⟨by simp, rfl⟩
    | cons e es ih =>
      rw [List.forM_cons]
      by_cases he : e.2.createdAt = none ∨ T.supportsWriteClock = true
      · have hok : (T.admitWrite typeName ⟨ttl, e.2.createdAt⟩ : M σ Unit) s = (.ok (), s) := by
          unfold Topology.admitWrite requireWriteClockSupported
          rw [if_neg]
          · rfl
          · rintro ⟨h1, h2⟩
            rcases he with he | he
            · rw [he] at h1
              cases h1
            · exact h2 he
        rw [bind_ok hok]
        rcases ih with ⟨h1, h2⟩ | ⟨h1, h2⟩
        · exact .inl ⟨fun x hx => (List.mem_cons.mp hx).elim (fun h => h ▸ he) (h1 x), h2⟩
        · exact .inr ⟨fun h => h1 fun x hx => h x (by simp [hx]), h2⟩
      · refine .inr ⟨fun h => he (h e (by simp)), ?_⟩
        have hno : (T.admitWrite typeName ⟨ttl, e.2.createdAt⟩ : M σ Unit) s =
            (.error (.ttlUnsupported (typeName ++
              " does not support created_at with the current provision")), s) := by
          unfold Topology.admitWrite requireWriteClockSupported
          rw [if_pos]
          · rfl
          · rw [not_or] at he
            exact ⟨Option.isSome_iff_ne_none.mpr he.1, he.2⟩
        exact ⟨_, rfl, bind_error hno⟩
  have hmem : (∀ e ∈ writes.entries, e.2.createdAt = none ∨ T.supportsWriteClock = true) ↔
      Clocked T writes :=
    ⟨fun h k w hw => h (k, w) (Dict.mem_entries.mpr hw),
      fun h e he => h e.1 e.2 (Dict.mem_entries.mp he)⟩
  simpa only [hmem] using hstep writes.entries

theorem store_unclocked {T : Topology S K V P} {writes : Dict K (ConditionalWrite V)}
    (h : ¬ Clocked T writes) (typeName : String) (ttl : Option TtlPolicy) (n : Node S K V P) :
    ∃ e : Exn, e.isUnsupported = true ∧
      (T.store typeName).batchWriteIfUnchanged writes ttl n = (.error e, n) := by
  rcases admission T typeName ttl writes n with ⟨hc, -⟩ | ⟨-, e, he, hrun⟩
  · exact absurd hc h
  · exact ⟨e, he, bind_error hrun⟩

theorem store_clocked {T : Topology S K V P} {writes : Dict K (ConditionalWrite V)}
    (h : Clocked T writes) (typeName : String) (ttl : Option TtlPolicy) (n : Node S K V P) :
    (T.store typeName).batchWriteIfUnchanged writes ttl n =
      if writes.entries.isEmpty then (.ok ∅, n)
      else T.batchWriteIfUnchanged writes ⟨ttl, none⟩ n := by
  rcases admission T typeName ttl writes n with ⟨-, hrun⟩ | ⟨hc, -⟩
  · refine (bind_ok hrun).trans ?_
    split <;> rfl
  · exact absurd h hc

/-- Without an authority nothing decides. -/
theorem batch_undecided {T : Topology S K V P} (h : T.authority = none)
    (writes : Dict K (ConditionalWrite V)) (o : WriteOptions) (n : Node S K V P) :
    ∃ e : Exn, e.isUnsupported = true ∧ T.batchWriteIfUnchanged writes o n = (.error e, n) := by
  refine ⟨.unsupported ("write_if_unchanged" ++
    " needs a target that decides whether the record exists"), rfl, ?_⟩
  unfold Topology.batchWriteIfUnchanged Topology.requireAuthority
  rw [h]
  rfl

/-- A batch that replaces a component is refused before any target sees it. -/
theorem batch_refused {T : Topology S K V P} {writes : Dict K (ConditionalWrite V)}
    (h : T.replaced writes ≠ []) (o : WriteOptions) (n : Node S K V P) :
    ∃ e : Exn, e.isUnsupported = true ∧ T.batchWriteIfUnchanged writes o n = (.error e, n) := by
  cases ha : T.authority with
  | none => exact batch_undecided ha writes o n
  | some a =>
    refine ⟨.unsupported (reprNames (T.replaced writes)
      ++ " are written before the commit point and could not be "
      ++ "taken back if the record changed; declare them after_commit to update them"), rfl, ?_⟩
    unfold Topology.batchWriteIfUnchanged Topology.requireAuthority
    rw [ha, pure_bind, if_pos h]
    rfl

theorem nodeStore_undecided {T : Topology S K V P} {zip : Option Zip} (h : T.authority = none)
    (hz : zip ≠ none) (typeName : String) (writes : Dict K (ConditionalWrite V))
    (ttl : Option TtlPolicy) (n : Node S K V P) :
    ∃ e : Exn, e.isUnsupported = true ∧
      (T.nodeStore zip typeName).batchWriteIfUnchanged writes ttl n = (.error e, n) := by
  obtain ⟨z, rfl⟩ := Option.ne_none_iff_exists'.mp hz
  refine ⟨.unsupported ("a conditional write — set_if_absent, update — on a zip needs a "
    ++ "commit_part: without one no part decides whether the record exists"), rfl, ?_⟩
  show (if T.authority.isNone then _ else _ : M (Node S K V P) (Finset K)) n = _
  rw [h]
  rfl

theorem nodeStore_decided {T : Topology S K V P} {zip : Option Zip}
    (h : T.authority = none → zip = none) (typeName : String)
    (writes : Dict K (ConditionalWrite V)) (ttl : Option TtlPolicy) (n : Node S K V P) :
    (T.nodeStore zip typeName).batchWriteIfUnchanged writes ttl n =
      (T.store typeName).batchWriteIfUnchanged writes ttl n := by
  cases zip with
  | none => rfl
  | some z =>
    have ha : T.authority.isNone = false := by
      rw [Option.isNone_eq_false_iff, Option.isSome_iff_ne_none]
      intro hn
      cases h hn
    show (if T.authority.isNone then _ else _ : M (Node S K V P) (Finset K)) n = _
    rw [ha]
    rfl

end Stores

/-! ## A parent -/

section Parent

variable {τ R K V Q : Type} [DecidableEq K] [DecidableEq V]

/-- The store as the authority of a parent. The parent's other targets live elsewhere. -/
def parentOf (d : Declared) (s : KvStore τ K V) (others : List (Target R K V V)) :
    Topology (τ × R) K V Q where
  targets := storeTarget d (s.zoom Lens.first) some id :: others.map (Target.zoom Lens.second)
  parts := []
  assemble := none

/-- The child, as the parent's authority. -/
def childTarget (d : Declared) (s : KvStore τ K V) : AnyTarget (τ × R) K V Q :=
  Target.upcast Sum.inl (storeTarget d (s.zoom Lens.first) some id)

variable {d : Declared} {s : KvStore τ K V} {others : List (Target R K V V)}

theorem parent_authority (hd : d.role = .authority) :
    (parentOf d s others : Topology (τ × R) K V Q).authority = some (childTarget d s) := by
  show List.find? _ (childTarget d s :: _) = _
  rw [List.find?_cons_of_pos]
  exact decide_eq_true hd

theorem parent_dependents {t : AnyTarget (τ × R) K V Q} (hd : d.role = .authority)
    (ht : t ∈ (parentOf d s others : Topology (τ × R) K V Q).dependents) :
    ∃ u ∈ others, t = Target.upcast Sum.inl (Target.zoom Lens.second u) := by
  obtain ⟨hmem, hrole⟩ := mem_dependents.mp ht
  rcases List.mem_append.mp hmem with hmem | hmem
  · obtain ⟨u, hu, rfl⟩ := List.mem_map.mp hmem
    rcases List.mem_cons.mp hu with rfl | hu
    · have hchild : d.role = .dependent := hrole
      rw [hd] at hchild
      cases hchild
    · obtain ⟨u', hu', rfl⟩ := List.mem_map.mp hu
      exact ⟨u', hu', rfl⟩
  · cases hmem

theorem parent_supportsWriteClock (hd : d.role = .authority)
    (hothers : ∀ t ∈ others, t.role = .dependent ∨ t.role = .fallback) :
    (parentOf d s others : Topology (τ × R) K V Q).supportsWriteClock = s.supportsWriteClock := by
  have hmem : ∀ t, t ∈ (parentOf d s others : Topology (τ × R) K V Q).committing ↔
      t = childTarget d s := by
    intro t
    simp only [Topology.committing, Topology.byRole, List.mem_flatMap, List.mem_filter,
      decide_eq_true_eq]
    constructor
    · rintro ⟨ρ, hρ, ht, hrole⟩
      rcases List.mem_append.mp ht with ht | ht
      · obtain ⟨u, hu, rfl⟩ := List.mem_map.mp ht
        rcases List.mem_cons.mp hu with rfl | hu
        · rfl
        · obtain ⟨u', hu', rfl⟩ := List.mem_map.mp hu
          have hur : u'.role = ρ := hrole
          rcases hothers u' hu' with h | h <;> rw [h] at hur <;> subst hur <;> simp at hρ
      · cases ht
    · rintro rfl
      exact ⟨.authority, by simp, List.mem_append_left _ (List.mem_cons_self), hd⟩
  unfold Topology.supportsWriteClock
  rw [Bool.eq_iff_iff, List.all_eq_true]
  constructor
  · exact fun h => h _ ((hmem _).mpr rfl)
  · intro h t ht
    rw [(hmem t).mp ht]
    exact h

omit [DecidableEq V] in
/-- With no components, what follows the authority's answer keeps what each sync keeps. -/
theorem ensures_afterConditional {S P : Type} {T : Topology S K V P} (I : Node S K V P → Prop)
    (hcomp : T.components = [])
    (h : ∀ t ∈ T.dependents, ∀ what op,
      Ensures I (T.syncOne t what op none) fun r n => r = .ok () ∧ I n)
    (writes : Dict K (ConditionalWrite V)) (o : WriteOptions) (written : Finset K) :
    Ensures I (T.afterConditional writes o written) fun r n => r = .ok () ∧ I n := by
  have hloop : ∀ {α : Type} (xs : List α) (f : α → M (Node S K V P) PUnit),
      (∀ x ∈ xs, Ensures I (f x) fun r n => r = .ok ⟨⟩ ∧ I n) →
      Ensures I (forM xs f) fun r n => r = .ok ⟨⟩ ∧ I n := by
    intro α xs f hf
    induction xs with
    | nil => exact fun n hn => ⟨rfl, hn⟩
    | cons x xs ih =>
      rw [List.forM_cons]
      refine (hf x (by simp)).bind (fun _ => ?_) ?_
      · exact (ih fun y hy => hf y (by simp [hy])).weaken (fun n hn => hn.2) fun _ _ h => h
      · rintro e n ⟨h, -⟩
        cases h
  have hremoved : ∀ t ∈ T.removedAfterCommit, t ∈ T.dependents := by
    intro t ht
    unfold Topology.removedAfterCommit at ht
    rw [hcomp, List.nil_append, ite_self] at ht
    exact ht
  have hfirst : Ensures I (when (Topology.removedKeys writes written ≠ []) do
      forM T.removedAfterCommit fun t =>
        T.syncOne t "batch delete" (.batchDelete (Topology.removedKeys writes written)) none)
      fun r n => r = .ok ⟨⟩ ∧ I n := by
    unfold Prog.when
    split
    · exact hloop _ _ fun t ht => h t (hremoved t ht) _ _
    · exact fun n hn => ⟨rfl, hn⟩
  refine hfirst.bind (fun _ => ?_) ?_
  · refine (hloop _ _ fun t ht => hloop _ _ fun g _ => h t ht _ _).weaken ?_ fun _ _ h => h
    exact fun n hn => hn.2
  · rintro e n ⟨h, -⟩
    cases h

theorem on_zoom {S R K V P Q : Type} [DecidableEq K] (l : Lens R S) (t : Target S K V P) (f : P → Q)
    (op : SyncOp K V) : op.on ((t.zoom l).upcast f) = l.zoom (op.on (t.upcast f)) := by
  cases op with
  | write key value options => rfl
  | batchWrite items options => rfl
  | delete key => exact Lens.zoom_discard l _
  | unset key => exact Lens.zoom_discard l _
  | batchDelete keys => exact Lens.zoom_discard l _
  | batchUnset keys => exact Lens.zoom_discard l _

theorem parent_components (d : Declared) (s : KvStore τ K V) (others : List (Target R K V V)) :
    (parentOf d s others : Topology (τ × R) K V Q).components = [] := rfl

theorem parent_replaced (d : Declared) (s : KvStore τ K V) (others : List (Target R K V V))
    (writes : Dict K (ConditionalWrite V)) :
    (parentOf d s others : Topology (τ × R) K V Q).replaced writes = [] := rfl

/-- A parent's quiet dependent stops nothing, and leaves the child where it is. -/
theorem parent_syncOne (hd : d.role = .authority)
    (hquiet : ∀ t ∈ others, Quiet (Target.upcast Sum.inl t : AnyTarget R K V Q))
    {t : AnyTarget (τ × R) K V Q}
    (ht : t ∈ (parentOf d s others : Topology (τ × R) K V Q).dependents)
    (what : String) (op : SyncOp K V) (c : τ) :
    Ensures (fun n : Node (τ × R) K V Q => n.media.1 = c)
      ((parentOf d s others : Topology (τ × R) K V Q).syncOne t what op none)
      fun r n => r = .ok () ∧ n.media.1 = c := by
  intro n hn
  obtain ⟨u, hu, rfl⟩ := parent_dependents hd ht
  have hq : Quiet (Target.upcast Sum.inl (Target.zoom Lens.second u) : AnyTarget (τ × R) K V Q) := by
    intro op s e he
    rw [on_zoom] at he
    exact hquiet u hu op s.2 e he
  unfold Topology.syncOne Topology.runSync
  split
  · exact ⟨rfl, hn⟩
  · refine ⟨settle_quiet hq op _ what _ _, ?_⟩
    have hfirst : Moves (fun a b : τ × R => b.1 = a.1)
        (op.on (Target.upcast Sum.inl (Target.zoom Lens.second u) : AnyTarget (τ × R) K V Q)) := by
      rw [on_zoom]
      exact fun _ => rfl
    exact (moves_settle hfirst _ _ _ _ _ n.media).trans hn

/-- What a parent makes of what its child answers, and that it leaves the child there. -/
theorem parent_conditional (hd : d.role = .authority)
    (hquiet : ∀ t ∈ others, Quiet (Target.upcast Sum.inl t : AnyTarget R K V Q))
    {writes : Dict K (ConditionalWrite V)}
    (hclock : ∀ k w, writes.get? k = some w → w.createdAt = none ∨ s.supportsWriteClock = true)
    (ttl : Option TtlPolicy) (m : Node (τ × R) K V Q) :
    let child := s.batchWriteIfUnchanged (unseen writes) ttl m.media.1
    let run := (parentOf d s others : Topology (τ × R) K V Q).batchWriteIfUnchanged writes
      ⟨ttl, none⟩ m
    run.2.media.1 = child.2 ∧ (∀ w, child.1 = .ok w → run.1 = .ok w) ∧
      (∀ e, child.1 = .error e → ∃ e', run.1 = .error e' ∧ e'.isUnsupported = false) := by
  intro child run
  have hreceived : Topology.received (childTarget d s : AnyTarget (τ × R) K V Q) writes =
      writes := by
    unfold Topology.received
    split
    · rfl
    · next hno =>
      refine Dict.map_eq_self fun k w hw => ?_
      rcases hclock k w hw with h | h
      · rw [← h]
      · exact absurd h hno
  have hchild : (childTarget d s : AnyTarget (τ × R) K V Q).batchWriteIfUnchanged writes
      ⟨ttl, none⟩ = Lens.first.zoom (s.batchWriteIfUnchanged (unseen writes) ttl) := by
    show (if _ then _ else _) = _
    rw [if_neg]
    · exact congrArg (fun ws => Lens.first.zoom (s.batchWriteIfUnchanged ws ttl)) (slotted_some writes)
    · rw [not_not]
      have hnone : (fun (_ : K) (w : ConditionalWrite V) =>
          if (slottedWrite some w).isNone then some () else none) = fun _ _ => none := by
        funext _ w
        unfold slottedWrite
        cases w.change <;> rfl
      rw [hnone]
      show writes.entries.filterMap _ = []
      simp
  have hkeep := fun c => ensures_afterConditional
    (fun n : Node (τ × R) K V Q => n.media.1 = c) (parent_components d s others)
    (fun t ht what op => parent_syncOne hd hquiet ht what op c) writes ⟨ttl, none⟩
  have hrun : (parentOf d s others : Topology (τ × R) K V Q).batchWriteIfUnchanged writes
      ⟨ttl, none⟩ = Node.onMedia (runCommitting d.name d.role
        (Lens.first.zoom (s.batchWriteIfUnchanged (unseen writes) ttl))) >>= fun written =>
      (parentOf d s others : Topology (τ × R) K V Q).afterConditional writes ⟨ttl, none⟩ written
        >>= fun _ => pure written := by
    unfold Topology.batchWriteIfUnchanged Topology.requireAuthority
    rw [parent_authority hd]
    simp only [pure_bind, parent_replaced, parent_components, List.forM_nil, ne_eq,
      not_true_eq_false, if_false, hreceived, hchild]
    rfl
  have hrun' : run = _ := congrFun hrun m
  rcases hc : s.batchWriteIfUnchanged (unseen writes) ttl m.media.1 with ⟨e | w, c⟩
  · have hzoom : Lens.first.zoom (s.batchWriteIfUnchanged (unseen writes) ttl) m.media =
        (.error e, (c, m.media.2)) := Lens.first_zoom hc
    obtain ⟨e', he', hcommit⟩ := runCommitting_error hzoom d.name d.role
    have hat : Node.onMedia (runCommitting d.name d.role
        (Lens.first.zoom (s.batchWriteIfUnchanged (unseen writes) ttl))) m =
        (.error e', ⟨(c, m.media.2), m.syncs⟩) := by
      rw [Node.onMedia_apply, hcommit]
    rw [bind_error hat] at hrun'
    rw [hrun']
    have hchild' : child = (.error e, c) := hc
    rw [hchild']
    exact ⟨rfl, fun w h => (by cases h), fun _ _ => ⟨e', rfl, Exn.not_unsupported he'⟩⟩
  · have hzoom : Lens.first.zoom (s.batchWriteIfUnchanged (unseen writes) ttl) m.media =
        (.ok w, (c, m.media.2)) := Lens.first_zoom hc
    have hat : Node.onMedia (runCommitting d.name d.role
        (Lens.first.zoom (s.batchWriteIfUnchanged (unseen writes) ttl))) m =
        (.ok w, ⟨(c, m.media.2), m.syncs⟩) := by
      rw [Node.onMedia_apply]
      unfold runCommitting
      rw [catching_ok hzoom]
    obtain ⟨hok, hfirst⟩ := hkeep c w ⟨(c, m.media.2), m.syncs⟩ rfl
    rw [bind_ok hat, bind_ok (Prod.ext hok rfl)] at hrun'
    rw [hrun']
    have hchild' : child = (.ok w, c) := hc
    rw [hchild']
    exact ⟨hfirst, fun w' h => h, fun e h => (by cases h)⟩

end Parent

/-! ## Conditional writes through a wrapper -/

section Closed

variable {S K V P : Type} [DecidableEq K] [DecidableEq V]

/-- Both wrote the same keys, or both raised, `KvStoreUnsupported` or something else. -/
def SameExit : Except Exn (Finset K) → Except Exn (Finset K) → Prop
  | .ok written, .ok written' => written = written'
  | .error e, .error e' => e.isUnsupported = e'.isUnsupported
  | _, _ => False

/-- They end the same way in the same state: the same contents, the same writes asked of
    every target, and the same operations queued. -/
def Alike {σ : Type} (direct wrapped : Except Exn (Finset K) × σ) : Prop :=
  SameExit direct.1 wrapped.1 ∧ wrapped.2 = direct.2

/-- The batch does through a view what it does directly: it is refused before any target
    sees it, or replaces whole records only. -/
def UnnoticedByView (T : Topology S K V P) (writes : Dict K (ConditionalWrite V))
    (ttl : Option TtlPolicy) (s : S) : Prop :=
  ¬ Clocked T writes ∨ T.authority = none ∨ T.replaced writes ≠ [] ∨
    ReplacesWhole T writes ⟨ttl, none⟩ s

/-- As `UnnoticedByView`. A parent refuses only a clock itself: what its child refuses it
    reports as a failure of the commit. -/
def UnnoticedByParent (T : Topology S K V P) (zip : Option Zip)
    (writes : Dict K (ConditionalWrite V)) (ttl : Option TtlPolicy) (s : S) : Prop :=
  ¬ Clocked T writes ∨ (T.authority = none → zip = none ∧ writes.entries = []) ∧
    T.replaced writes = [] ∧ ReplacesWhole T writes ⟨ttl, none⟩ s

omit [DecidableEq V] in
theorem blind_authority {T : Topology S K V P} (htargets : ∀ t ∈ T.targets, t.Kind)
    (hparts : ∀ t ∈ T.parts, t.Kind) {t : AnyTarget (Logged S K) K V P}
    (ht : T.tagged.authority = some t) : Blind t := by
  obtain ⟨p, hp, hs⟩ := tagged_logs (List.mem_of_find?_eq_some ht)
  have hmem : p.1 ∈ T.all := by
    have hfst := List.mem_map_of_mem (f := Prod.fst) hp
    rwa [List.zipIdx_map_fst] at hfst
  have hblind : Blind p.1 := by
    rcases List.mem_append.mp hmem with hm | hm
    · obtain ⟨u, hu, hup⟩ := List.mem_map.mp hm
      rw [← hup]
      exact (htargets u hu).blind
    · obtain ⟨u, hu, hup⟩ := List.mem_map.mp hm
      rw [← hup]
      exact (hparts u hu).blind
  have hevent : ∀ (writes : Dict K (ConditionalWrite V)) r,
      conditionalEvent p.2 p.1.role (unseen writes) r = conditionalEvent p.2 p.1.role writes r := by
    intro writes r
    have hfilter : ∀ q : Option V → Bool,
        ((unseen writes).filter fun _ w => q w.change.value?).keys =
          (writes.filter fun _ w => q w.change.value?).keys := by
      intro q
      unfold unseen
      rw [Dict.filter_map, Dict.keys_map]
    unfold conditionalEvent
    rw [hfilter Option.isSome, hfilter Option.isNone, keys_unseen]
  intro writes o
  rw [hs.conditional, hs.conditional, hblind]
  congr 1
  funext r
  exact hevent writes r

omit [DecidableEq K] [DecidableEq V] in
theorem entries_unseen {writes : Dict K (ConditionalWrite V)} :
    (unseen writes).entries.isEmpty = writes.entries.isEmpty := by
  have h := congrArg List.isEmpty (keys_unseen writes)
  simpa only [Dict.keys, List.isEmpty_map] using h

omit [DecidableEq V] in
/-- A batch that passes the checks of the composition ends unseen as it does seen, exactly
    if it replaces whole records only. -/
theorem unseen_iff {T : Topology S K V P} (hblind : ∀ t, T.tagged.authority = some t → Blind t)
    {writes : Dict K (ConditionalWrite V)} (ttl : Option TtlPolicy)
    (n : Node (Logged S K) K V P) (hclock : Clocked T.tagged writes)
    (hauth : T.tagged.authority ≠ none) (hrep : T.tagged.replaced writes = [])
    (typeName : String) :
    let run := fun ws => (T.tagged.store typeName).batchWriteIfUnchanged ws ttl n
    (ReplacesWhole T.tagged writes ⟨ttl, none⟩ n.media → run (unseen writes) = run writes) ∧
      ((∀ t ∈ T.tagged.dependents, Quiet t) → (run (unseen writes)).2 = (run writes).2 →
        ReplacesWhole T.tagged writes ⟨ttl, none⟩ n.media) ∧
      ∀ e, (run writes).1 = .error e → e.isUnsupported = false := by
  intro run
  have hrun : run writes = _ := store_clocked hclock typeName ttl n
  have hrun' : run (unseen writes) = _ :=
    store_clocked (clocked_unseen.mpr hclock) typeName ttl n
  rw [entries_unseen] at hrun'
  rw [hrun, hrun']
  cases hempty : writes.entries.isEmpty with
  | true =>
    refine ⟨fun _ => rfl, fun _ _ k before after hr => ?_, fun e h => by cases h⟩
    obtain ⟨w, hw, -⟩ := hr
    have hmem := Dict.mem_entries.mpr hw
    rw [List.isEmpty_iff.mp hempty] at hmem
    cases hmem
  | false =>
    refine ⟨fun h => batch_unseen hblind h,
      fun hquiet h => whole_of_same hblind hquiet hrep hauth h, fun e h => ?_⟩
    exact Exn.not_unsupported (raises_conditional hauth hrep n e h)

/-- What the store of a composition refuses before any target sees it. -/
theorem nodeStore_refuses {S K V P : Type} [DecidableEq K] {T : Topology S K V P}
    {zip : Option Zip} {writes : Dict K (ConditionalWrite V)}
    (h : ¬ Clocked T writes ∨ T.authority = none ∧ (zip ≠ none ∨ writes.entries ≠ []) ∨
      T.replaced writes ≠ []) (typeName : String) (ttl : Option TtlPolicy) (n : Node S K V P) :
    ∃ e : Exn, e.isUnsupported = true ∧
      (T.nodeStore zip typeName).batchWriteIfUnchanged writes ttl n = (.error e, n) := by
  by_cases hz : T.authority = none ∧ zip ≠ none
  · exact nodeStore_undecided hz.1 hz.2 typeName writes ttl n
  rw [nodeStore_decided fun ha => by_contra fun hne => hz ⟨ha, hne⟩]
  by_cases hc : Clocked T writes
  · have hne : writes.entries ≠ [] := by
      rcases h with h | ⟨ha, h | h⟩ | h
      · exact absurd hc h
      · exact absurd ⟨ha, h⟩ hz
      · exact h
      · intro hnil
        have hempty : writes = Dict.empty := Dict.ext hnil
        rw [hempty] at h
        exact h (List.map_eq_nil_iff.mpr (List.filter_eq_nil_iff.mpr fun t _ => Bool.false_ne_true))
    rw [store_clocked hc, if_neg (by simpa using hne)]
    rcases h with h | ⟨ha, -⟩ | h
    · exact absurd hc h
    · exact batch_undecided ha _ _ _
    · exact batch_refused h _ _
  · exact store_unclocked hc _ _ _

omit [DecidableEq K] [DecidableEq V] in
theorem alike_refused {σ : Type} {a b : Except Exn (Finset K) × σ} {s : σ}
    (ha : ∃ e : Exn, e.isUnsupported = true ∧ a = (.error e, s))
    (hb : ∃ e : Exn, e.isUnsupported = true ∧ b = (.error e, s)) : Alike a b := by
  obtain ⟨e, he, rfl⟩ := ha
  obtain ⟨e', he', rfl⟩ := hb
  exact ⟨he.trans he'.symm, rfl⟩

omit [DecidableEq K] [DecidableEq V] in
theorem SameExit.refl (r : Except Exn (Finset K)) : SameExit r r := by
  cases r <;> exact rfl

omit [DecidableEq V] in
/-- The batch as it is, and unseen. -/
theorem alike_unseen_iff {T : Topology S K V P} {zip : Option Zip} (typeName : String)
    (hblind : ∀ t, T.tagged.authority = some t → Blind t)
    (writes : Dict K (ConditionalWrite V)) (ttl : Option TtlPolicy)
    (n : Node (Logged S K) K V P) :
    let run := fun ws => (T.tagged.nodeStore zip typeName).batchWriteIfUnchanged ws ttl n
    (UnnoticedByView T.tagged writes ttl n.media → Alike (run writes) (run (unseen writes))) ∧
      ((∀ t ∈ T.tagged.dependents, Quiet t) → Alike (run writes) (run (unseen writes)) →
        UnnoticedByView T.tagged writes ttl n.media) := by
  intro run
  by_cases hc : Clocked T.tagged writes
  swap
  · refine ⟨fun _ => ?_, fun _ _ => .inl hc⟩
    exact alike_refused (nodeStore_refuses (.inl hc) _ _ _)
      (nodeStore_refuses (.inl fun h => hc (clocked_unseen.mp h)) _ _ _)
  by_cases ha : T.tagged.authority = none
  · refine ⟨fun _ => ?_, fun _ _ => .inr (.inl ha)⟩
    by_cases hz : zip ≠ none ∨ writes.entries ≠ []
    · have hz' : zip ≠ none ∨ (unseen writes).entries ≠ [] := by
        refine hz.imp id fun h => ?_
        rw [ne_eq, ← List.isEmpty_iff, entries_unseen, List.isEmpty_iff]
        exact h
      exact alike_refused (nodeStore_refuses (.inr (.inl ⟨ha, hz⟩)) _ _ _)
        (nodeStore_refuses (.inr (.inl ⟨ha, hz'⟩)) _ _ _)
    · rw [not_or, not_not, not_not] at hz
      have hempty : unseen writes = writes := by
        have hnil : writes = Dict.empty := Dict.ext hz.2
        rw [hnil]
        rfl
      rw [hempty]
      exact ⟨SameExit.refl _, rfl⟩
  by_cases hrep : T.tagged.replaced writes = []
  swap
  · refine ⟨fun _ => ?_, fun _ _ => .inr (.inr (.inl hrep))⟩
    exact alike_refused (nodeStore_refuses (.inr (.inr hrep)) _ _ _)
      (nodeStore_refuses (.inr (.inr (replaced_unseen hrep))) _ _ _)
  have hrun : ∀ ws, run ws = (T.tagged.store typeName).batchWriteIfUnchanged ws ttl n :=
    fun ws => nodeStore_decided (fun h => absurd h ha) _ _ _ _
  obtain ⟨hsame, hwhole, -⟩ := unseen_iff hblind ttl n hc ha hrep typeName
  constructor
  · rintro (h | h | h | h)
    · exact absurd hc h
    · exact absurd h ha
    · exact absurd hrep h
    · have hboth : (T.tagged.store typeName).batchWriteIfUnchanged (unseen writes) ttl n =
          (T.tagged.store typeName).batchWriteIfUnchanged writes ttl n := hsame h
      rw [hrun, hrun, hboth]
      exact ⟨SameExit.refl _, rfl⟩
  · intro hquiet halike
    rw [hrun, hrun] at halike
    exact .inr (.inr (.inr (hwhole hquiet halike.2)))

omit [DecidableEq K] [DecidableEq V] in
theorem not_alike {σ : Type} {e : Exn} {s s' : σ} (he : e.isUnsupported = true)
    {r : Except Exn (Finset K)} (hr : ∀ e', r = .error e' → e'.isUnsupported = false) :
    ¬ Alike (.error e, s) (r, s') := by
  rintro ⟨h, -⟩
  cases r with
  | ok w => exact h
  | error e' =>
    have hee : e.isUnsupported = e'.isUnsupported := h
    rw [he, hr e' rfl] at hee
    cases hee

omit [DecidableEq V] in
theorem replaced_empty (T : Topology S K V P) {writes : Dict K (ConditionalWrite V)}
    (h : writes.entries = []) :
    T.replaced writes = [] ∧ ∀ k before after, ¬ Replaces writes k before after := by
  have hempty : writes = Dict.empty := Dict.ext h
  rw [hempty]
  refine ⟨List.map_eq_nil_iff.mpr (List.filter_eq_nil_iff.mpr fun t _ => Bool.false_ne_true), ?_⟩
  rintro k before after ⟨w, hw, -⟩
  cases hw

/-- The batch directly, and through a parent. -/
theorem alike_parent_iff {R Q : Type} {T : Topology S K V P} {zip : Option Zip} (typeName : String)
    (hblind : ∀ t, T.tagged.authority = some t → Blind t)
    (writes : Dict K (ConditionalWrite V)) (ttl : Option TtlPolicy)
    (n : Node (Logged S K) K V P) {d : Declared} {others : List (Target R K V V)}
    (parentName : String) (r : R) (syncs : List (Queued (Node (Logged S K) K V P × R) K V Q))
    (hd : d.role = .authority) (hroles : ∀ t ∈ others, t.role = .dependent ∨ t.role = .fallback)
    (hquiet : ∀ t ∈ others, Quiet (Target.upcast Sum.inl t : AnyTarget R K V Q)) :
    let direct := (T.tagged.nodeStore zip typeName).batchWriteIfUnchanged writes ttl n
    let wrapped := ((parentOf d (T.tagged.nodeStore zip typeName) others).store
      parentName).batchWriteIfUnchanged writes ttl ⟨(n, r), syncs⟩
    (UnnoticedByParent T.tagged zip writes ttl n.media →
        Alike direct (wrapped.1, wrapped.2.media.1)) ∧
      ((∀ t ∈ T.tagged.dependents, Quiet t) → Alike direct (wrapped.1, wrapped.2.media.1) →
        UnnoticedByParent T.tagged zip writes ttl n.media) := by
  intro direct wrapped
  let C := T.tagged.nodeStore zip typeName
  have hclockC : C.supportsWriteClock = T.tagged.supportsWriteClock := by
    show (T.tagged.nodeStore zip typeName).supportsWriteClock = _
    cases zip <;> rfl
  have hclocked : Clocked (parentOf d C others : Topology _ K V Q) writes ↔
      Clocked T.tagged writes := by
    unfold Clocked
    rw [parent_supportsWriteClock hd hroles, hclockC]
  by_cases hc : Clocked T.tagged writes
  swap
  · refine ⟨fun _ => ?_, fun _ _ => .inl hc⟩
    obtain ⟨e, he, hrun⟩ := store_unclocked (fun h => hc (hclocked.mp h)) parentName ttl
      (⟨(n, r), syncs⟩ : Node (Node (Logged S K) K V P × R) K V Q)
    have hwrapped : wrapped = (.error e, ⟨(n, r), syncs⟩) := hrun
    rw [hwrapped]
    exact alike_refused (nodeStore_refuses (.inl hc) _ _ _) ⟨e, he, rfl⟩
  have hwrapped : wrapped = _ := store_clocked (hclocked.mpr hc) parentName ttl
    (⟨(n, r), syncs⟩ : Node (Node (Logged S K) K V P × R) K V Q)
  by_cases hempty : writes.entries = []
  · obtain ⟨hrep, hnone⟩ := replaced_empty T.tagged hempty
    rw [if_pos (by simpa using hempty)] at hwrapped
    rw [hwrapped]
    by_cases hz : T.tagged.authority = none → zip = none
    · have hdirect : direct = (.ok ∅, n) := by
        show (T.tagged.nodeStore zip typeName).batchWriteIfUnchanged writes ttl n = _
        rw [nodeStore_decided hz, store_clocked hc, if_pos (by simpa using hempty)]
      rw [hdirect]
      refine ⟨fun _ => ⟨rfl, rfl⟩, fun _ _ => .inr ⟨fun h => ⟨hz h, hempty⟩, hrep, ?_⟩⟩
      exact fun k before after hr => absurd hr (hnone k before after)
    · have hz' : T.tagged.authority = none ∧ zip ≠ none := by
        rwa [Classical.not_imp] at hz
      obtain ⟨e, he, hdirect⟩ := nodeStore_undecided hz'.1 hz'.2 typeName writes ttl n
      have hno : ¬ Alike direct (.ok ∅, n) := by
        have hdirect' : direct = (.error e, n) := hdirect
        rw [hdirect']
        exact not_alike he fun e' h => by cases h
      constructor
      · rintro (h | ⟨h, -⟩)
        · exact absurd hc h
        · exact absurd (fun ha => (h ha).1) hz
      · exact fun _ halike => absurd halike hno
  rw [if_neg (by simpa using hempty)] at hwrapped
  obtain ⟨hstate, hok, herror⟩ := parent_conditional (s := C) hd hquiet (by
    rw [hclockC]; exact hc) ttl (⟨(n, r), syncs⟩ : Node (Node (Logged S K) K V P × R) K V Q)
  rw [← hwrapped] at hstate hok herror
  have hrefused : (T.tagged.authority = none ∧ (zip ≠ none ∨ writes.entries ≠ []) ∨
      T.tagged.replaced writes ≠ []) → ¬ Alike direct (wrapped.1, wrapped.2.media.1) := by
    intro h
    have h' : T.tagged.authority = none ∧ (zip ≠ none ∨ (unseen writes).entries ≠ []) ∨
        T.tagged.replaced (unseen writes) ≠ [] := by
      refine h.imp (fun ha => ⟨ha.1, .inr ?_⟩) replaced_unseen
      rw [ne_eq, ← List.isEmpty_iff, entries_unseen, List.isEmpty_iff]
      exact hempty
    obtain ⟨e, he, hdirect⟩ := nodeStore_refuses (.inr h) typeName ttl n
    obtain ⟨e', -, hchild⟩ := nodeStore_refuses (.inr h') typeName ttl n
    obtain ⟨e'', hw, hno⟩ := herror e' (congrArg Prod.fst hchild)
    have hdirect' : direct = (.error e, n) := hdirect
    rw [hdirect', hw]
    exact not_alike he fun x hx => by cases hx; exact hno
  by_cases ha : T.tagged.authority = none
  · constructor
    · rintro (h | ⟨h, -⟩)
      · exact absurd hc h
      · exact absurd (h ha).2 hempty
    · exact fun _ halike => absurd halike (hrefused (.inl ⟨ha, .inr hempty⟩))
  by_cases hrep : T.tagged.replaced writes = []
  swap
  · constructor
    · rintro (h | ⟨-, h, -⟩)
      · exact absurd hc h
      · exact absurd h hrep
    · exact fun _ halike => absurd halike (hrefused (.inr hrep))
  obtain ⟨hsame, hwhole, hexit⟩ := unseen_iff hblind ttl n hc ha hrep typeName
  have hplain : ∀ ws, C.batchWriteIfUnchanged ws ttl n =
      (T.tagged.store typeName).batchWriteIfUnchanged ws ttl n :=
    fun ws => nodeStore_decided (fun h => absurd h ha) _ _ _ _
  constructor
  · rintro (h | ⟨-, -, h⟩)
    · exact absurd hc h
    have hboth : C.batchWriteIfUnchanged (unseen writes) ttl n = direct := by
      rw [hplain]
      exact (hsame h).trans (hplain writes).symm
    refine ⟨?_, hstate.trans (congrArg Prod.snd hboth)⟩
    rcases hdirect : direct with ⟨e | w, n'⟩
    · obtain ⟨e', hw, hno⟩ := herror e (by rw [hboth, hdirect])
      have hexit' : e.isUnsupported = false := by
        refine hexit e ?_
        show ((T.tagged.store typeName).batchWriteIfUnchanged writes ttl n).1 = _
        rw [← hplain writes]
        exact congrArg Prod.fst hdirect
      show SameExit (.error e) wrapped.1
      rw [hw]
      exact hexit'.trans hno.symm
    · show SameExit (.ok w) wrapped.1
      rw [hok w (by rw [hboth, hdirect])]
      rfl
  · intro hq halike
    refine .inr ⟨fun h => absurd h ha, hrep, hwhole hq ?_⟩
    have hstates : (C.batchWriteIfUnchanged (unseen writes) ttl n).2 = direct.2 :=
      hstate.symm.trans halike.2
    rw [hplain] at hstates
    exact hstates.trans (congrArg Prod.snd (hplain writes))

/-- A conditional batch through a value view, or through a parent composition, ends as the
    same batch made directly and leaves every target alike: if the condition holds, and
    only then where no dependent's failure cuts the batch short. -/
theorem conditional_closed {U R Q : Type} (T : Topology S K V P) (zip : Option Zip)
    (typeName : String) (htargets : ∀ t ∈ T.targets, t.Kind) (hparts : ∀ t ∈ T.parts, t.Kind)
    (ttl : Option TtlPolicy) (n : Node (Logged S K) K V P) :
    let C := T.tagged.nodeStore zip typeName
    (∀ (forward : V → U) (inverse : U → V) (writes : Dict K (ConditionalWrite U)),
      let direct := writes.map fun _ w => behindView inverse w
      let alike := Alike (C.batchWriteIfUnchanged direct ttl n)
        ((imapStore C forward inverse).batchWriteIfUnchanged writes ttl n)
      (UnnoticedByView T.tagged direct ttl n.media → alike) ∧
        ((∀ t ∈ T.tagged.dependents, Quiet t) → alike →
          UnnoticedByView T.tagged direct ttl n.media)) ∧
    (∀ (d : Declared) (others : List (Target R K V V)) (parentName : String)
      (writes : Dict K (ConditionalWrite V)) (r : R)
      (syncs : List (Queued (Node (Logged S K) K V P × R) K V Q)), d.role = .authority →
      (∀ t ∈ others, t.role = .dependent ∨ t.role = .fallback) →
      (∀ t ∈ others, Quiet (Target.upcast Sum.inl t : AnyTarget R K V Q)) →
      let wrapped := ((parentOf d C others).store parentName).batchWriteIfUnchanged writes ttl
        ⟨(n, r), syncs⟩
      let alike := Alike (C.batchWriteIfUnchanged writes ttl n) (wrapped.1, wrapped.2.media.1)
      (UnnoticedByParent T.tagged zip writes ttl n.media → alike) ∧
        ((∀ t ∈ T.tagged.dependents, Quiet t) → alike →
          UnnoticedByParent T.tagged zip writes ttl n.media)) := by
  intro C
  have hblind : ∀ t, T.tagged.authority = some t → Blind t :=
    fun t ht => blind_authority htargets hparts ht
  constructor
  · intro forward inverse writes direct alike
    have hview : (imapStore C forward inverse).batchWriteIfUnchanged writes ttl n =
        C.batchWriteIfUnchanged (unseen direct) ttl n := by
      show C.batchWriteIfUnchanged (writes.map fun _ w => inverseWrite inverse w) ttl n = _
      rw [← unseen_behindView]
    have halike : alike = Alike (C.batchWriteIfUnchanged direct ttl n)
        (C.batchWriteIfUnchanged (unseen direct) ttl n) := by
      show Alike _ _ = _
      rw [hview]
    rw [halike]
    exact alike_unseen_iff typeName hblind direct ttl n
  · intro d others parentName writes r syncs hd hroles hquiet wrapped alike
    exact alike_parent_iff typeName hblind writes ttl n parentName r syncs hd hroles hquiet

/-- A zip of two parts. The head decides whether the record exists, and the tail is
    written before it. -/
def headTail : Topology (DictState Nat Nat × DictState Nat Nat) Nat (Nat × Nat) Nat where
  targets := []
  parts := [
    keyMapTarget ⟨"head", .authority, none, false, .required⟩
      ((dictKeyMap Nat Nat).zoom Lens.first) (fun v => some v.1) id [],
    keyMapTarget ⟨"tail", .component, none, false, .required⟩
      ((dictKeyMap Nat Nat).zoom Lens.second) (fun v => some v.2) id []]
  assemble := none

/-- The record `(10, 20)` under `1`, as the zip holds it. -/
def headTailHeld : Node (Logged (DictState Nat Nat × DictState Nat Nat) Nat) Nat (Nat × Nat) Nat :=
  ⟨((DictState.empty.set 1 10, DictState.empty.set 1 20), []), []⟩

theorem conditional_closed_headTail :
    let C := headTail.tagged.nodeStore none "ZippedKvStore"
    (∀ (forward inverse : Nat × Nat → Nat × Nat) (writes : Dict Nat (ConditionalWrite (Nat × Nat))),
      let direct := writes.map fun _ w => behindView inverse w
      let alike := Alike (C.batchWriteIfUnchanged direct none headTailHeld)
        ((imapStore C forward inverse).batchWriteIfUnchanged writes none headTailHeld)
      (UnnoticedByView headTail.tagged direct none headTailHeld.media → alike) ∧
        ((∀ t ∈ headTail.tagged.dependents, Quiet t) → alike →
          UnnoticedByView headTail.tagged direct none headTailHeld.media)) ∧
    (∀ (d : Declared) (others : List (Target Unit Nat (Nat × Nat) (Nat × Nat)))
      (parentName : String) (writes : Dict Nat (ConditionalWrite (Nat × Nat))) (r : Unit)
      (syncs : List (Queued (Node (Logged (DictState Nat Nat × DictState Nat Nat) Nat)
        Nat (Nat × Nat) Nat × Unit) Nat (Nat × Nat) Unit)), d.role = .authority →
      (∀ t ∈ others, t.role = .dependent ∨ t.role = .fallback) →
      (∀ t ∈ others, Quiet (Target.upcast Sum.inl t : AnyTarget Unit Nat (Nat × Nat) Unit)) →
      let wrapped := ((parentOf d C others).store parentName).batchWriteIfUnchanged writes none
        ⟨(headTailHeld, r), syncs⟩
      let alike := Alike (C.batchWriteIfUnchanged writes none headTailHeld)
        (wrapped.1, wrapped.2.media.1)
      (UnnoticedByParent headTail.tagged none writes none headTailHeld.media → alike) ∧
        ((∀ t ∈ headTail.tagged.dependents, Quiet t) → alike →
          UnnoticedByParent headTail.tagged none writes none headTailHeld.media)) :=
  conditional_closed headTail none "ZippedKvStore" (fun _ h => by cases h)
    (fun t h => by
      rcases List.mem_cons.mp h with rfl | h
      · exact .keyMap _ _ _ _ _
      · rw [List.mem_singleton.mp h]
        exact .keyMap _ _ _ _ _)
    none headTailHeld

/-- Replacing the head alone succeeds on the zip. A view of the zip refuses the same write. -/
theorem headTail_view_refuses :
    let C := headTail.tagged.nodeStore none "ZippedKvStore"
    let writes := Dict.single 1
      (⟨⟨some (10, 20), some (.number 1)⟩, .put (11, 20), none⟩ : ConditionalWrite (Nat × Nat))
    ¬ Alike (C.batchWriteIfUnchanged (writes.map fun _ w => behindView id w) none headTailHeld)
      ((imapStore C id id).batchWriteIfUnchanged writes none headTailHeld) := by
  intro C writes h
  have hdirect : (C.batchWriteIfUnchanged (writes.map fun _ w => behindView id w) none
      headTailHeld).1.isOk = true := by rfl
  have hview : ((imapStore C id id).batchWriteIfUnchanged writes none headTailHeld).1.isOk =
      false := by rfl
  obtain ⟨h, -⟩ := h
  revert h
  cases hd : (C.batchWriteIfUnchanged (writes.map fun _ w => behindView id w) none headTailHeld).1 with
  | error e => rw [hd] at hdirect; cases hdirect
  | ok w =>
    cases hv : ((imapStore C id id).batchWriteIfUnchanged writes none headTailHeld).1 with
    | ok w' => rw [hv] at hview; cases hview
    | error e => exact fun h => h

end Closed

end Kvtsjl
