import Kvtsjl.Compose
import Kvtsjl.Kinds
import Kvtsjl.OpSteps

/-
  What becomes of a write that a target cannot do.
  `watchedStore` runs the same code over stores and indexes that also count the writes
  they refuse as unsupported. Below a best-effort dependent or a filled target the
  failure surfaces where that target itself refuses. A composition in between reports
  it as a failure of its own record, which its parent then logs and drops.
-/

namespace Kvtsjl

open Assoc (Dict)
open Effects Prog

/-! ## Stores that count what they refuse -/

section Watch

variable {σ K V α : Type}

/-- Whether the exit is the refusal of something the store cannot do. -/
def refusals : Except Exn α → Nat
  | .ok _ => 0
  | .error e => if e.isUnsupported then 1 else 0

/-- Run `m`, and count it if it is refused. -/
def watch (m : M σ α) : M (σ × Nat) α := fun s =>
  ((m s.1).1, ((m s.1).2, s.2 + refusals (m s.1).1))

theorem discard_watch (m : M σ α) (s : σ × Nat) :
    (Functor.discard (watch m) s).1 = (Functor.discard m s.1).1 ∧
      (Functor.discard (watch m) s).2.1 = (Functor.discard m s.1).2 := by
  rw [discard_apply, discard_apply]
  exact ⟨rfl, rfl⟩

/-- The store, counting the writes it refuses. -/
def KvStore.watched (s : KvStore σ K V) : KvStore (σ × Nat) K V :=
  { s.zoom Lens.first with
    set := fun k v o => watch (s.set k v o)
    batchSet := fun items o => watch (s.batchSet items o)
    batchWriteIfUnchanged := fun ws ttl => watch (s.batchWriteIfUnchanged ws ttl) }

/-- The index, counting the entries it refuses. -/
def Index.watched (i : Index σ K V) : Index (σ × Nat) K V :=
  { i.zoom Lens.first with
    sync := fun k v => watch (i.sync k v)
    batchSync := fun items => watch (i.batchSync items) }

end Watch

namespace Composition

/-- The state of a tree of which every store and every index counts its refusals. -/
def WatchedState : {K V : Type} → Composition K V → Type
  | _, _, .leaf l => l.State × Nat
  | _, _, .imap c _ _ => c.WatchedState
  | _, _, .imapKeys _ c _ _ => c.WatchedState
  | K, V, .node _ _ P _ _ _ child _ _ _ index _ _ =>
    Node (Media (fun i => (child i).WatchedState) fun j => (index j).State × Nat) K V P × Nat

/-- The store such a tree is: the same code, over stores and indexes that count. -/
def watchedStore : {K V : Type} → [DecidableEq K] → (c : Composition K V) →
    KvStore c.WatchedState K V
  | _, _, _, .leaf l => l.store.watched
  | _, _, _, .imap c forward inverse => imapStore c.watchedStore forward inverse
  | _, _, _, .imapKeys _ c toStore fromStore => imapKeysStore c.watchedStore toStore fromStore
  | _, _, _, .node typeName zip _ _ _ _ child declared shape _ index indexPolicy assemble =>
    let T := mediaTopology (fun i => (child i).watchedStore) declared shape
      (fun j => (index j).index.watched) indexPolicy assemble
    (match zip with
      | none => T.store typeName
      | some z => z.store T typeName).watched

/-- Nothing in the tree has refused a write. -/
def Quiet : {K V : Type} → (c : Composition K V) → c.WatchedState → c.WatchedState → Prop
  | _, _, .leaf _, s, s' => s'.2 = s.2
  | _, _, .imap c _ _, s, s' => c.Quiet s s'
  | _, _, .imapKeys _ c _ _, s, s' => c.Quiet s s'
  | _, _, .node _ _ _ _ _ _ child _ _ _ _ _ _, s, s' =>
    ((∀ i, (child i).Quiet (s.1.media.1 i) (s'.1.media.1 i)) ∧
      ∀ j, (s'.1.media.2 j).2 = (s.1.media.2 j).2) ∧ s'.2 = s.2

/-- No target of the tree has refused a write. A leaf is its own target. -/
def QuietBelow : {K V : Type} → (c : Composition K V) → c.WatchedState → c.WatchedState → Prop
  | _, _, .leaf _, s, s' => s'.2 = s.2
  | _, _, .imap c _ _, s, s' => c.QuietBelow s s'
  | _, _, .imapKeys _ c _ _, s, s' => c.QuietBelow s s'
  | _, _, .node _ _ _ _ _ _ child _ _ _ _ _ _, s, s' =>
    (∀ i, (child i).Quiet (s.1.media.1 i) (s'.1.media.1 i)) ∧
      ∀ j, (s'.1.media.2 j).2 = (s.1.media.2 j).2

end Composition

/-! ## Programs that only fail to count where they are refused -/

section Sharp

variable {σ τ α : Type}

/-- The state moves along `R`, unless `m` is refused as unsupported. -/
def Sharp (R : σ → σ → Prop) (m : M σ α) : Prop :=
  ∀ s, R s (m s).2 ∨ ∃ e, (m s).1 = .error e ∧ e.isUnsupported = true

variable {R : σ → σ → Prop}

theorem moves_sharp {m : M σ α} (h : Moves R m) : Sharp R m := fun s => .inl (h s)

theorem sharp_closed (R : σ → σ → Prop) [Std.Refl R] [IsTrans σ R] : Closed (Sharp R) where
  pure a := moves_sharp (Moves.pure a)
  raise e := moves_sharp (Moves.raise e)
  bind := by
    intro α β m f hm hf s
    have hs := hm s
    rcases h : m s with ⟨e | a, s'⟩ <;> rw [h] at hs
    · rw [bind_error h]
      exact hs.imp_right fun ⟨e', he, hu⟩ => ⟨e', by rw [Except.error.inj he], hu⟩
    · rw [bind_ok h]
      have hfirst : R s s' := hs.resolve_right fun ⟨e, he, _⟩ => by cases he
      exact (hf a s').imp_left fun hrest => IsTrans.trans _ _ _ hfirst hrest

theorem Sharp.lands {m : M σ α} (h : Sharp R m) : Lands R m := by
  intro s a s' hm
  have hs := h s
  rw [hm] at hs
  exact hs.resolve_right fun ⟨e, he, _⟩ => by cases he

/-- A best-effort step that returns was not refused. -/
theorem Sharp.settle {m : M σ α} (h : Sharp R m) (name what : String) (policy : SyncPolicy)
    (beforeCommit : Bool) (otherwise : α) :
    Lands R (settle name what policy beforeCommit otherwise m) := by
  intro s a s' hs
  have hm := h s
  unfold Kvtsjl.settle at hs
  rcases hrun : m s with ⟨e | b, s1⟩ <;> rw [hrun] at hm
  · rw [catching_error hrun] at hs
    split_ifs at hs with hpolicy
    · obtain ⟨-, hs1⟩ := Prod.mk.inj hs
      rw [← hs1]
      refine hm.resolve_right fun ⟨e', he, hunsupported⟩ => hpolicy.2 ?_
      rw [Except.error.inj he]
      exact hunsupported
    all_goals cases hs
  · rw [catching_ok hrun] at hs
    obtain ⟨-, hs1⟩ := Prod.mk.inj hs
    rw [← hs1]
    exact hm.resolve_right fun ⟨e', he, _⟩ => by cases he

theorem Sharp.tryFill {m : M σ α} (h : Sharp R m) : Lands R (tryFill m) := by
  intro s a s' hs
  have hm := h s
  unfold Kvtsjl.tryFill at hs
  have hdiscard := discard_apply m s
  rcases hrun : m s with ⟨e | b, s1⟩ <;> rw [hrun] at hm hdiscard
  · rw [catching_error hdiscard] at hs
    split at hs
    · cases hs
    · next hn =>
      obtain ⟨-, hs1⟩ := Prod.mk.inj hs
      rw [← hs1]
      refine hm.resolve_right fun ⟨e', he, hunsupported⟩ => hn ?_
      rw [Except.error.inj he]
      exact hunsupported
  · rw [catching_ok hdiscard] at hs
    obtain ⟨-, hs1⟩ := Prod.mk.inj hs
    rw [← hs1]
    exact hm.resolve_right fun ⟨e', he, _⟩ => by cases he

/-- A step that must succeed returns where what it runs does. -/
theorem lands_settle {m : M σ α} (h : Lands R m) (name what : String) (beforeCommit : Bool)
    (otherwise : α) : Lands R (settle name what .required beforeCommit otherwise m) := by
  intro s a s' hs
  unfold Kvtsjl.settle at hs
  rcases hrun : m s with ⟨e | b, s1⟩
  · rw [catching_error hrun] at hs
    have hpolicy : ¬ (SyncPolicy.required = .bestEffort ∧ ¬ e.isUnsupported = true) :=
      fun hc => SyncPolicy.noConfusion hc.1
    rw [if_neg hpolicy] at hs
    split_ifs at hs <;> cases hs
  · rw [catching_ok hrun] at hs
    obtain ⟨-, hs1⟩ := Prod.mk.inj hs
    rw [← hs1]
    exact h s b s1 hrun

theorem lands_runCommitting {m : M σ α} (h : Lands R m) (name : String) (role : Role) :
    Lands R (runCommitting name role m) := fun s a s' hs => h s a s' (runCommitting_ok hs)

/-- A counted program counts exactly its refusals. -/
theorem sharp_watch (m : M σ α) : Sharp (fun s s' : σ × Nat => s'.2 = s.2) (watch m) := by
  intro s
  unfold watch
  rcases h : m s.1 with ⟨e | a, s'⟩
  · by_cases hu : e.isUnsupported = true
    · exact .inr ⟨e, rfl, hu⟩
    · refine .inl ?_
      show s.2 + refusals (.error e) = s.2
      simp [refusals, hu]
  · exact .inl rfl

end Sharp

/-! ## A target that is no composition -/

namespace Composition

theorem Quiet.refl {K V : Type} (c : Composition K V) (s : c.WatchedState) : c.Quiet s s := by
  induction c with
  | leaf l => rfl
  | imap c f g ih => exact ih s
  | imapKeys dec c f g ih => exact ih s
  | node name zip P n part dec child declared shape m index policy assemble ih =>
    exact ⟨⟨fun i => ih i _, fun _ => rfl⟩, rfl⟩

theorem Quiet.trans {K V : Type} {c : Composition K V} {s s' s'' : c.WatchedState}
    (h : c.Quiet s s') (h' : c.Quiet s' s'') : c.Quiet s s'' := by
  induction c with
  | leaf l => exact Eq.trans h' h
  | imap c f g ih => exact ih h h'
  | imapKeys dec c f g ih => exact ih h h'
  | node name zip P n part dec child declared shape m index policy assemble ih =>
    exact ⟨⟨fun i => ih i (h.1.1 i) (h'.1.1 i), fun j => (h'.1.2 j).trans (h.1.2 j)⟩, h'.2.trans h.2⟩

instance {K V : Type} (c : Composition K V) : Std.Refl c.Quiet := ⟨Quiet.refl c⟩

instance {K V : Type} (c : Composition K V) : IsTrans c.WatchedState c.Quiet :=
  ⟨fun _ _ _ h h' => h.trans h'⟩

/-- Of a target that is no composition, what is refused is seen to be refused. -/
theorem sharp_of_not_composed {K V : Type} (c : Composition K V) (h : ¬ c.Composed) :
    ∀ [DecidableEq K], c.watchedStore.Is (Sharp c.Quiet) := by
  induction c with
  | leaf l =>
    intro _
    have hzoom : ∀ {α : Type} (m : M l.State α),
        Sharp (fun s s' : l.State × Nat => s'.2 = s.2) (Lens.first.zoom m) :=
      fun m => moves_sharp fun _ => rfl
    exact ⟨fun _ => hzoom _, fun _ => hzoom _, fun _ => hzoom _, fun _ => hzoom _, fun _ => hzoom _,
      fun _ => hzoom _, fun _ _ _ => sharp_watch _, fun _ _ => sharp_watch _,
      fun _ _ => sharp_watch _, fun _ => hzoom _, fun _ => hzoom _, fun _ => hzoom _,
      fun _ => hzoom _⟩
  | imap c f g ih =>
    intro _
    exact imapStore_is (sharp_closed c.Quiet) (ih h) f g
  | imapKeys dec c f g ih =>
    intro _
    exact imapKeysStore_is (sharp_closed c.Quiet) (ih h) f g
  | node name zip P n part dec child declared shape m index policy assemble ih =>
    exact absurd trivial h

/-! ## A target that is a composition -/

/-- Every set of the store is refused where its options are. -/
def RefusesBy {K V : Type} [DecidableEq K] (c : Composition K V) (o : WriteOptions) : Prop :=
  ∀ key value s, (∃ e, (c.watchedStore.set key value o s).1 = .error e) ∧
    c.QuietBelow s (c.watchedStore.set key value o s).2

theorem set_refused {K V : Type} (c : Composition K V) (hc : c.Composed) :
    ∀ [DecidableEq K] (o : WriteOptions) key value s e, (c.watchedStore.set key value o s).1 = .error e →
      e.isUnsupported = true → c.RefusesBy o := by
  induction c with
  | leaf l => exact hc.elim
  | imap c f g ih =>
    intro _ o key value s e he hu
    have hrefuses := ih hc o key (g value) s e he hu
    exact fun key value s => hrefuses key (g value) s
  | imapKeys dec c f g ih =>
    intro _ o key value s e he hu
    have hrefuses := ih hc o (f key) value s e he hu
    exact fun key value s => hrefuses (f key) value s
  | node name zip P n part dec child declared shape m index policy assemble ih =>
    intro _ o key value s e he hu
    let T := mediaTopology (fun i => (child i).watchedStore) declared shape
      (fun j => (index j).index.watched) policy assemble
    have hset : ∀ key value s, (node name zip P n part dec child declared shape m index policy
        assemble).watchedStore.set key value o s =
          watch (T.admitWrite name o >>= fun _ => T.write key value o) s := by
      intro key value s
      cases zip <;> rfl
    rw [hset] at he
    have hrun : ((T.admitWrite name o >>= fun _ => T.write key value o : M (Node _ _ _ _) Unit) s.1).1 =
        .error e := he
    unfold Topology.admitWrite requireWriteClockSupported at hrun
    split at hrun
    · next hrefused =>
      intro key' value' s'
      rw [hset]
      unfold Topology.admitWrite requireWriteClockSupported
      rw [if_pos hrefused]
      exact ⟨⟨_, rfl⟩, fun i => Quiet.refl _ _, fun j => rfl⟩
    · have hrecord := raises_write T key value o s.1 e hrun
      rw [Exn.not_unsupported hrecord] at hu
      cases hu

end Composition

/-- The operation writes records. -/
def RecordOp.isWrite {K V : Type} : RecordOp K V → Bool
  | .set _ _ _ => true
  | .batchSet _ _ => true
  | .writeIfUnchanged _ _ => true
  | _ => false

section Refused

variable {S K V P : Type} [DecidableEq K] (T : Topology S K V P)

theorem admitWrite_apply (typeName : String) (o : WriteOptions) (n : Node S K V P) :
    (∃ e, T.admitWrite typeName o n = (.error e, n)) ∨ T.admitWrite typeName o n = (.ok (), n) := by
  unfold Topology.admitWrite requireWriteClockSupported
  split
  · exact .inl ⟨_, rfl⟩
  · exact .inr rfl

/-- A node that refuses a write has asked no target. -/
theorem refused_unchanged (typeName : String) (zip : Option Zip) (op : RecordOp K V)
    (hw : op.isWrite = true) (n : Node S K V P) (e : Exn) :
    let store := match zip with
      | none => T.store typeName
      | some z => z.store T typeName
    (op.run store n).1 = .error e → e.isUnsupported = true → (op.run store n).2 = n := by
  intro store he hu
  have hrecord : ∀ {α : Type} {m : M (Node S K V P) α} {n : Node S K V P},
      Raises (fun e => e.isRecordWriteError = true) m → (m n).1 = .error e → False := by
    intro α m n hm hme
    have hnot := Exn.not_unsupported (hm n e hme)
    rw [hnot] at hu
    cases hu
  cases op with
  | set key value o =>
    have hrun : (RecordOp.set key value o).run store n =
        (T.admitWrite typeName o >>= fun _ => T.write key value o : M (Node S K V P) Unit) n := by
      cases zip <;> rfl
    rw [hrun] at he ⊢
    rcases admitWrite_apply T typeName o n with ⟨e', ha⟩ | ha
    · rw [bind_error ha]
    · rw [bind_ok ha] at he
      exact (hrecord (raises_write T key value o) he).elim
  | batchSet items o =>
    have hrun : (RecordOp.batchSet items o).run store n =
        (T.admitWrite typeName o >>= fun _ => T.batchWrite items o : M (Node S K V P) Unit) n := by
      cases zip <;> rfl
    rw [hrun] at he ⊢
    rcases admitWrite_apply T typeName o n with ⟨e', ha⟩ | ha
    · rw [bind_error ha]
    · rw [bind_ok ha] at he
      exact (hrecord (raises_batchWrite T items o) he).elim
  | writeIfUnchanged ws ttl =>
    have hloop : Moves Same (forM ws.entries fun e =>
        (T.admitWrite typeName ⟨ttl, e.2.createdAt⟩ : M (Node S K V P) PUnit)) := by
      refine Moves.forM fun x _ n => ?_
      rcases admitWrite_apply T typeName ⟨ttl, x.2.createdAt⟩ n with ⟨e', ha⟩ | ha <;> rw [ha] <;> rfl
    have hplain : ∀ n : Node S K V P, ((T.store typeName).batchWriteIfUnchanged ws ttl n).1 = .error e →
        ((T.store typeName).batchWriteIfUnchanged ws ttl n).2 = n := by
      intro n he
      show ((forM ws.entries (fun e => T.admitWrite typeName ⟨ttl, e.2.createdAt⟩) >>= fun _ =>
        if ws.entries.isEmpty then pure ∅ else T.batchWriteIfUnchanged ws ⟨ttl, none⟩ :
          M (Node S K V P) (Finset K)) n).2 = n
      have he : ((forM ws.entries (fun e => T.admitWrite typeName ⟨ttl, e.2.createdAt⟩) >>= fun _ =>
        if ws.entries.isEmpty then pure ∅ else T.batchWriteIfUnchanged ws ⟨ttl, none⟩ :
          M (Node S K V P) (Finset K)) n).1 = .error e := he
      have hsame := hloop n
      rcases ha : (forM ws.entries fun e => (T.admitWrite typeName ⟨ttl, e.2.createdAt⟩ :
          M (Node S K V P) PUnit)) n with ⟨e' | u, n'⟩ <;> rw [ha] at hsame
      · rw [bind_error ha]
        exact hsame
      · have hn : n' = n := hsame
        rw [bind_ok ha, hn] at he ⊢
        split at he
        · cases he
        · next hne =>
          rw [if_neg hne]
          by_cases hauthority : T.authority = none
          · unfold Topology.batchWriteIfUnchanged Topology.requireAuthority
            rw [hauthority]
            rfl
          · by_cases hrep : T.replaced ws = []
            · exact (hrecord (raises_conditional hauthority hrep) he).elim
            · unfold Topology.batchWriteIfUnchanged Topology.requireAuthority
              cases hsome : T.authority with
              | none => exact absurd hsome hauthority
              | some a =>
                simp only [pure_bind]
                rw [if_pos hrep]
                rfl
    have hdiscard : ∀ m : M (Node S K V P) (Finset K), (Functor.discard m n).1 = .error e →
        (m n).1 = .error e := by
      intro m hm
      rw [discard_apply] at hm
      cases hr : (m n).1 with
      | error e' =>
        rw [hr] at hm
        rw [Except.error.inj hm]
      | ok a =>
        rw [hr] at hm
        cases hm
    show (Functor.discard (store.batchWriteIfUnchanged ws ttl) n).2 = n
    have he := hdiscard (store.batchWriteIfUnchanged ws ttl) he
    rw [discard_apply]
    cases zip with
    | none => exact hplain n he
    | some z =>
      show ((if T.authority.isNone then _ else (T.store typeName).batchWriteIfUnchanged ws ttl :
        M (Node S K V P) (Finset K)) n).2 = n
      have he : ((if T.authority.isNone then _ else (T.store typeName).batchWriteIfUnchanged ws ttl :
        M (Node S K V P) (Finset K)) n).1 = .error e := he
      split at he
      · next hn => rw [if_pos hn]; rfl
      · next hn => rw [if_neg hn]; exact hplain n he
  | delete key => cases hw
  | batchDelete keys => cases hw
  | unset key => cases hw
  | batchUnset keys => cases hw

end Refused

namespace Composition

theorem QuietBelow.refl {K V : Type} (c : Composition K V) (s : c.WatchedState) : c.QuietBelow s s := by
  induction c with
  | leaf l => rfl
  | imap c f g ih => exact ih s
  | imapKeys dec c f g ih => exact ih s
  | node name zip P n part dec child declared shape m index policy assemble ih =>
    exact ⟨fun i => Quiet.refl _ _, fun _ => rfl⟩

/-- A batch through a view sets key by key. If one set is refused, the first was. -/
theorem sets_refused {K V : Type} [DecidableEq K] (c : Composition K V) (hc : c.Composed)
    {γ : Type} (xs : List γ) (key : γ → K) (value : γ → V) (o : WriteOptions) (s : c.WatchedState)
    (e : Exn)
    (he : ((forM xs fun x => c.watchedStore.set (key x) (value x) o :
      M c.WatchedState PUnit) s).1 = .error e) (hu : e.isUnsupported = true) :
    c.QuietBelow s ((forM xs fun x => c.watchedStore.set (key x) (value x) o :
      M c.WatchedState PUnit) s).2 := by
  obtain ⟨x, -, s0, hx⟩ := forM_error he
  have hrefuses := set_refused c hc o _ _ s0 e hx hu
  cases xs with
  | nil => cases he
  | cons y ys =>
    obtain ⟨⟨e', hy⟩, hquiet⟩ := hrefuses (key y) (value y) s
    rw [List.forM_cons]
    rcases hrun : c.watchedStore.set (key y) (value y) o s with ⟨r, s'⟩
    rw [hrun] at hy hquiet
    have hr : r = .error e' := hy
    rw [hr] at hrun
    rw [bind_error hrun]
    exact hquiet

/-- Where a composition refuses a write, no target of it has refused anything. -/
theorem quietBelow_of_unsupported {K V : Type} (c : Composition K V) (hc : c.Composed) :
    ∀ [DecidableEq K] (op : RecordOp K V), op.isWrite = true → ∀ s e,
      (op.run c.watchedStore s).1 = .error e → e.isUnsupported = true →
        c.QuietBelow s (op.run c.watchedStore s).2 := by
  induction c with
  | leaf l => exact hc.elim
  | imap c f g ih =>
    intro _ op hw s e he hu
    cases op with
    | set key value o => exact ih hc (.set key (g value) o) rfl s e he hu
    | batchSet items o =>
      exact sets_refused c hc items.entries Prod.fst (fun x => g x.2) o s e he hu
    | writeIfUnchanged ws ttl => exact ih hc (.writeIfUnchanged _ ttl) rfl s e he hu
    | delete key => cases hw
    | batchDelete keys => cases hw
    | unset key => cases hw
    | batchUnset keys => cases hw
  | imapKeys dec c f g ih =>
    intro _ op hw s e he hu
    cases op with
    | set key value o => exact ih hc (.set (f key) value o) rfl s e he hu
    | batchSet items o =>
      exact sets_refused c hc items.entries (fun x => f x.1) Prod.snd o s e he hu
    | writeIfUnchanged ws ttl =>
      let stored := ws.entries.foldl (fun d e => d.set (f e.1) e.2) Dict.empty
      have hrun : (RecordOp.writeIfUnchanged ws ttl).run (imapKeys dec c f g).watchedStore =
          (RecordOp.writeIfUnchanged stored ttl).run c.watchedStore := discard_bind_pure _ _
      rw [hrun] at he ⊢
      exact ih hc (.writeIfUnchanged stored ttl) rfl s e he hu
    | delete key => cases hw
    | batchDelete keys => cases hw
    | unset key => cases hw
    | batchUnset keys => cases hw
  | node name zip P n part dec child declared shape m index policy assemble ih =>
    intro _ op hw s e he hu
    let T := mediaTopology (fun i => (child i).watchedStore) declared shape
      (fun j => (index j).index.watched) policy assemble
    let store := match zip with
      | none => T.store name
      | some z => z.store T name
    have hrun : ∀ s, ((op.run (node name zip P n part dec child declared shape m index policy
        assemble).watchedStore s).1 = (op.run store s.1).1) ∧
          (op.run (node name zip P n part dec child declared shape m index policy
            assemble).watchedStore s).2.1 = (op.run store s.1).2 := by
      intro s
      cases op with
      | set key value o => exact ⟨rfl, rfl⟩
      | batchSet items o => exact ⟨rfl, rfl⟩
      | writeIfUnchanged ws ttl => exact discard_watch (store.batchWriteIfUnchanged ws ttl) s
      | delete key => cases hw
      | batchDelete keys => cases hw
      | unset key => cases hw
      | batchUnset keys => cases hw
    have hsame := refused_unchanged T name zip op hw s.1 e ((hrun s).1.symm.trans he) hu
    have hmedia : (op.run (node name zip P n part dec child declared shape m index policy
        assemble).watchedStore s).2.1 = s.1 := (hrun s).2.trans hsame
    show (∀ i, (child i).Quiet (s.1.media.1 i) _) ∧ _
    rw [hmedia]
    exact ⟨fun i => Quiet.refl _ _, fun _ => rfl⟩

end Composition

/-! ## A tree where a refusal is seen -/

/-- A program of a part that is seen to be refused is seen to be on the whole. -/
theorem sharp_zoom {σ τ α : Type} {R : τ → τ → Prop} {R' : σ → σ → Prop} {l : Lens σ τ} {m : M τ α}
    (h : Sharp R m) (hR : ∀ s t', R (l.get s) t' → R' s (l.set s t')) : Sharp R' (l.zoom m) :=
  fun s => (h (l.get s)).imp_left (hR s _)

theorem lands_zoom {σ τ α : Type} {R : τ → τ → Prop} {R' : σ → σ → Prop} {l : Lens σ τ} {m : M τ α}
    (h : Lands R m) (hR : ∀ s t', R (l.get s) t' → R' s (l.set s t')) : Lands R' (l.zoom m) :=
  Lens.zoom_lands fun t a t' ht s hs => hR s t' (by rw [hs]; exact h t a t' ht)

section Watched

variable {σ τ K V α : Type} {R : σ → σ → Prop}

theorem lands_watch {m : M σ α} (h : Lands R m) :
    Lands (fun s s' : σ × Nat => R s.1 s'.1 ∧ s'.2 = s.2) (watch m) := by
  intro s a s' hs
  rcases hm : m s.1 with ⟨e | b, t⟩
  · unfold watch at hs
    rw [hm] at hs
    cases hs
  · unfold watch at hs
    rw [hm] at hs
    obtain ⟨-, hs'⟩ := Prod.mk.inj hs
    rw [← hs']
    exact ⟨h s.1 b t hm, rfl⟩

theorem watched_is {s : KvStore σ K V} (h : s.Is (Lands R)) :
    s.watched.Is (Lands fun s s' : σ × Nat => R s.1 s'.1 ∧ s'.2 = s.2) := by
  have hzoom : (s.zoom Lens.first).Is (Lands fun s s' : σ × Nat => R s.1 s'.1 ∧ s'.2 = s.2) :=
    h.zoom Lens.first fun hm => lands_zoom hm fun s t' ht => ⟨ht, rfl⟩
  exact { hzoom with
    set := fun k v o => lands_watch (h.set k v o)
    batchSet := fun items o => lands_watch (h.batchSet items o)
    conditional := fun ws ttl => lands_watch (h.conditional ws ttl) }

/-- Where every index is attempted and none fails, each has landed. -/
theorem lands_each [Std.Refl R] [IsTrans σ R] {indexes : List (Index σ K V)}
    {op : Index σ K V → M σ Unit} (what : String) (h : ∀ i ∈ indexes, Lands R (op i)) :
    Lands R (each indexes op what) := by
  intro s a s' hs
  have hloop := each_ok hs
  have hlands : Lands R (forM (indexes.filter fun i => i.syncOnWrite) op) :=
    (lands_closed R).forM fun i hi => h i (List.mem_of_mem_filter hi)
  exact hlands s _ s' hloop

end Watched

namespace Composition

/-- Where a failure would be logged and dropped, the target is a leaf, or a view of one. No
    attached indexes are. -/
def Direct : {K V : Type} → Composition K V → Prop
  | _, _, .leaf _ => True
  | _, _, .imap c _ _ => c.Direct
  | _, _, .imapKeys _ c _ _ => c.Direct
  | _, _, .node _ _ _ _ _ _ child declared shape _ _ indexPolicy _ =>
    (∀ i, (child i).Direct) ∧ indexPolicy ≠ some .bestEffort ∧
      ∀ i, (declared i).policy = .bestEffort ∨ (declared i).fill = true ∧ (shape i).isWhole = true →
        ¬ (child i).Composed

section Direct

variable {K V P : Type} [DecidableEq K] {n m : Nat} {part : Fin n → Type} [∀ i, DecidableEq (part i)]
  {child : ∀ i, Composition K (part i)} {declared : Fin n → Declared}
  {shape : ∀ i, Shape V P (part i)} {index : Fin m → IndexLeaf K V}
  {indexPolicy : Option SyncPolicy} {assemble : Option (Parts V P → Option V)}

/-- No store below the node, and no index, has refused a write. -/
def QuietMedia (child : ∀ i, Composition K (part i)) (index : Fin m → IndexLeaf K V)
    (s s' : Media (fun i => (child i).WatchedState) fun j => (index j).State × Nat) : Prop :=
  (∀ i, (child i).Quiet (s.1 i) (s'.1 i)) ∧ ∀ j, (s'.2 j).2 = (s.2 j).2

instance : Std.Refl (QuietMedia child index) := ⟨fun _ => ⟨fun _ => Quiet.refl _ _, fun _ => rfl⟩⟩

instance : IsTrans _ (QuietMedia child index) :=
  ⟨fun _ _ _ h h' => ⟨fun i => (h.1 i).trans (h'.1 i), fun j => (h'.2 j).trans (h.2 j)⟩⟩

omit [DecidableEq K] [∀ i, DecidableEq (part i)] in
theorem quiet_at_child (i : Fin n)
    (s : Media (fun i => (child i).WatchedState) fun j => (index j).State × Nat)
    (t' : (child i).WatchedState) (h : (child i).Quiet ((Media.child i).get s) t') :
    QuietMedia child index s ((Media.child i).set s t') := by
  refine ⟨fun j => ?_, fun _ => rfl⟩
  show (child j).Quiet (s.1 j) (Function.update s.1 i t' j)
  by_cases hj : j = i
  · subst hj
    rw [Function.update_self]
    exact h
  · rw [Function.update_of_ne hj]
    exact Quiet.refl _ _

omit [DecidableEq K] [∀ i, DecidableEq (part i)] in
theorem quiet_at_index (j : Fin m)
    (s : Media (fun i => (child i).WatchedState) fun j => (index j).State × Nat)
    (t' : (index j).State × Nat) (h : t'.2 = ((Media.index j).get s).2) :
    QuietMedia child index s ((Media.index j).set s t') := by
  refine ⟨fun _ => Quiet.refl _ _, fun j' => ?_⟩
  show (Function.update s.2 j t' j').2 = (s.2 j').2
  by_cases hj : j' = j
  · subst hj
    rw [Function.update_self]
    exact h
  · rw [Function.update_of_ne hj]

/-- The topology of a node over stores and indexes that count. -/
abbrev watchedTopology (child : ∀ i, Composition K (part i)) (declared : Fin n → Declared)
    (shape : ∀ i, Shape V P (part i)) (index : Fin m → IndexLeaf K V)
    (indexPolicy : Option SyncPolicy) (assemble : Option (Parts V P → Option V)) :
    Topology (Media (fun i => (child i).WatchedState) fun j => (index j).State × Nat) K V P :=
  mediaTopology (fun i => (child i).watchedStore) declared shape (fun j => (index j).index.watched)
    indexPolicy assemble

omit [DecidableEq K] [∀ i, DecidableEq (part i)] in
theorem lands_index (j : Fin m) :
    let i := ((index j).index.watched.zoom
      (Media.index j : Lens (Media (fun i => (child i).WatchedState) fun j => (index j).State × Nat) _))
    (∀ k v, Lands (QuietMedia child index) (i.sync k v)) ∧
      (∀ items, Lands (QuietMedia child index) (i.batchSync items)) ∧
      (∀ k, Lands (QuietMedia child index) (i.delete k)) ∧
      ∀ ks, Lands (QuietMedia child index) (i.batchDelete ks) := by
  have hzoom : ∀ {α : Type} (m : M (index j).State α), Lands (QuietMedia child index)
      ((Media.index j : Lens (Media (fun i => (child i).WatchedState) fun j => (index j).State × Nat)
        _).zoom (Lens.first.zoom m)) :=
    fun m => lands_zoom (R := fun s s' : (index j).State × Nat => s'.2 = s.2)
      (fun s a s' hs => by rw [Lens.zoom_apply] at hs; rw [← (Prod.mk.inj hs).2]; rfl) (quiet_at_index j)
  exact ⟨fun k v => lands_zoom (sharp_watch _).lands (quiet_at_index j),
    fun items => lands_zoom (sharp_watch _).lands (quiet_at_index j), fun k => hzoom _, fun ks => hzoom _⟩

/-- What returns at a place has seen no refusal, where that holds of its store. -/
theorem writes_quiet
    (hchild : ∀ i, (child i).watchedStore.Is (Lands (child i).Quiet)) (p : Option (Fin n)) :
    (mediaTarget (fun i => (child i).watchedStore) declared shape (fun j => (index j).index.watched)
      indexPolicy p : AnyTarget _ K V P).Writes (Lands (QuietMedia child index)) := by
  have hc : @Closed Exn _ (Lands (QuietMedia child index)) := lands_closed _
  cases p with
  | some i =>
    exact Shape.target_writes hc _ _
      ((hchild i).zoom (Media.child i) fun hm => lands_zoom hm (quiet_at_child i)).writes
  | none =>
    have hindex : ∀ {op : Index _ K V → M _ Unit} (what : String),
        (∀ j, Lands (QuietMedia child index) (op ((index j).index.watched.zoom (Media.index j)))) →
        Lands (QuietMedia child index)
          (each (List.ofFn fun j => (index j).index.watched.zoom (Media.index j)) op what) := by
      intro op what h
      refine lands_each what fun i hi => ?_
      obtain ⟨j, rfl⟩ := (List.mem_ofFn' _ _).mp hi
      exact h j
    exact (indexesTarget_writes hc _ _ (fun k v what => hindex what fun j => (lands_index j).1 k v)
      (fun items what => hindex what fun j => (lands_index j).2.1 items)
      (fun k what => hindex what fun j => hc.discard ((lands_index j).2.2.1 k))
      fun ks what => hindex what fun j => hc.discard ((lands_index j).2.2.2 ks)).upcast _

/-- What follows the commit point is dropped only where a refusal would be seen. -/
theorem lands_syncOne {S : Type} {R : S → S → Prop} [Std.Refl R] [IsTrans S R] (T : Topology S K V P)
    {t : AnyTarget S K V P} (hlands : t.Writes (Lands R))
    (hsharp : t.policy = .bestEffort → t.Writes (Sharp R)) (what : String) (op : SyncOp K V) :
    Lands (fun n n' : Node S K V P => R n.media n'.media) (T.syncOne t what op none) := by
  have hsettled : ∀ beforeCommit,
      Lands R (settle t.name what t.policy beforeCommit () (op.on t)) := by
    intro beforeCommit
    cases hp : t.policy with
    | required => exact lands_settle (hlands.on (lands_closed R) op) _ _ _ _
    | bestEffort => exact ((hsharp hp).on (sharp_closed R) op).settle _ _ _ _ _
  unfold Topology.syncOne Topology.runSync
  split
  · intro n a n' h
    rw [← (Prod.mk.inj h).2]
    exact Std.Refl.refl _
  · exact lands_zoom (hsettled _) fun n s' h => h

end Direct

/-- In a tree where what is dropped is told apart, an operation that returns has seen no
    target refuse a write. -/
theorem quiet_of_direct {K V : Type} (c : Composition K V) (h : c.Direct) :
    ∀ [DecidableEq K], c.watchedStore.Is (Lands c.Quiet) := by
  induction c with
  | leaf l =>
    intro _
    exact (sharp_of_not_composed (leaf l) id).weaken Sharp.lands
  | imap c f g ih =>
    intro _
    exact imapStore_is (lands_closed c.Quiet) (ih h) f g
  | imapKeys dec c f g ih =>
    intro _
    exact imapKeysStore_is (lands_closed c.Quiet) (ih h) f g
  | node name zip P n part dec child declared shape m index policy assemble ih =>
    intro _
    obtain ⟨hdirect, hpolicy, hplain⟩ := h
    let T := watchedTopology child declared shape index policy assemble
    have hc : @Closed Exn _ (Lands (QuietMedia child index)) := lands_closed _
    have hchild : ∀ i, ((child i).watchedStore.zoom (Media.child i :
        Lens (Media (fun i => (child i).WatchedState) fun j => (index j).State × Nat) _)).Is
          (Lands (QuietMedia child index)) :=
      fun i => (ih i (hdirect i)).zoom _ fun hm => lands_zoom hm (quiet_at_child i)
    have hsharp : ∀ i, ¬ (child i).Composed → ((child i).watchedStore.zoom (Media.child i :
        Lens (Media (fun i => (child i).WatchedState) fun j => (index j).State × Nat) _)).Is
          (Sharp (QuietMedia child index)) :=
      fun i hi => (sharp_of_not_composed (child i) hi).zoom _ fun hm => sharp_zoom hm (quiet_at_child i)
    have hfills : ∀ t ∈ T.targets, t.fill = true → ∀ ws o,
        Lands (QuietMedia child index) (tryFill (t.batchWriteIfUnchanged ws o)) := by
      intro t ht hfill ws o
      rcases List.mem_append.mp ht with ht | ht
      · obtain ⟨i, -, ht⟩ := List.mem_filterMap.mp ht
        have hplace := Shape.target?_declared _ _ ht
        rw [hplace.2] at hfill
        have hwrites : t.Writes (Sharp (QuietMedia child index)) :=
          Shape.target?_writes (sharp_closed _) _ _ (hsharp i (hplain i (.inr ⟨hfill, hplace.1⟩))).writes t ht
        exact (hwrites.conditional ws o).tryFill
      · obtain ⟨p, -, rfl⟩ := Option.map_eq_some_iff.mp (Option.mem_toList.mp ht)
        cases hfill
    have hr : Readers T (Lands (QuietMedia child index)) := mediaTopology_readers hc (fun i => (hchild i).reads) hfills
    have hw : Writers T (Lands fun n n' => QuietMedia child index n.media n'.media) := by
      have : Std.Refl fun n n' : Node _ K V P => QuietMedia child index n.media n'.media :=
        ⟨fun n => Std.Refl.refl n.media⟩
      have : IsTrans _ fun n n' : Node _ K V P => QuietMedia child index n.media n'.media :=
        ⟨fun _ _ _ h h' => IsTrans.trans _ _ _ h h'⟩
      have hwrites : ∀ t ∈ T.all, t.Writes (Lands (QuietMedia child index)) := by
        intro t ht
        rw [all_eq] at ht
        obtain ⟨p, -, rfl⟩ := List.mem_map.mp ht
        exact writes_quiet (fun i => ih i (hdirect i)) p
      refine writers_of (lands_closed _) (fun hm => lands_zoom hm fun n s' h => h)
        (fun name role hm => lands_runCommitting hm name role)
        (fun _ t ht ks => (hr.reads t (Writers.components_all ht)).batchExists ks) hwrites fun t ht _ what op => ?_
      refine lands_syncOne T (hwrites t ht) (fun hp => ?_) what op
      rw [all_eq] at ht
      obtain ⟨p, hmem, rfl⟩ := List.mem_map.mp ht
      rw [nodeTarget_policy] at hp
      cases p with
      | none =>
        obtain ⟨q, hq⟩ := Option.isSome_iff_exists.mp (indexPolicy_of_place shape policy hmem)
        have hbest : policy.getD .required = .bestEffort := hp
        rw [hq] at hbest hpolicy
        exact absurd (congrArg some hbest) hpolicy
      | some i => exact Shape.target_writes (sharp_closed _) _ _ (hsharp i (hplain i (.inl hp))).writes
    cases zip with
    | none =>
      exact watched_is (topologyStore_is hr hw (fun hm => lands_zoom hm fun n s' h => h) name)
    | some z =>
      exact watched_is (zipStore_is hr hw (fun hm => lands_zoom hm fun n s' h => h)
        (mediaTopology_parts hc fun i => (hchild i).reads) z name)

end Composition

/-! ## What surfaces -/

/-- A best-effort step raises where what it runs is refused, and only there. -/
theorem settle_bestEffort_error {σ α : Type} (m : M σ α) (name what : String) (beforeCommit : Bool)
    (otherwise : α) (s : σ) :
    (∃ e, (settle name what .bestEffort beforeCommit otherwise m s).1 = .error e) ↔
      ∃ e, (m s).1 = .error e ∧ e.isUnsupported = true := by
  unfold settle
  rcases hm : m s with ⟨e | a, s'⟩
  · rw [catching_error hm]
    by_cases hu : e.isUnsupported = true
    · rw [if_neg fun h => h.2 hu]
      refine iff_of_true ?_ ⟨e, rfl, hu⟩
      split_ifs <;> exact ⟨_, rfl⟩
    · rw [if_pos ⟨rfl, hu⟩]
      refine iff_of_false (fun ⟨e', he⟩ => by cases he) fun ⟨e', he, hu'⟩ => hu ?_
      rw [Except.error.inj he]
      exact hu'
  · rw [catching_ok hm]
    exact iff_of_false (fun ⟨e, he⟩ => by cases he) fun ⟨e, he, _⟩ => by cases he

theorem tryFill_error {σ α : Type} (m : M σ α) (s : σ) :
    (∃ e, (tryFill m s).1 = .error e) ↔ ∃ e, (m s).1 = .error e ∧ e.isUnsupported = true := by
  unfold tryFill
  have hdiscard := discard_apply m s
  rcases hm : m s with ⟨e | a, s'⟩ <;> rw [hm] at hdiscard
  · rw [catching_error hdiscard]
    split
    · next hu => exact iff_of_true ⟨_, rfl⟩ ⟨e, rfl, hu⟩
    · next hu =>
      refine iff_of_false (fun ⟨e', he⟩ => by cases he) fun ⟨e', he, hu'⟩ => hu ?_
      rw [Except.error.inj he]
      exact hu'
  · rw [catching_ok hdiscard]
    exact iff_of_false (fun ⟨e, he⟩ => by cases he) fun ⟨e, he, _⟩ => by cases he

/-- The attached indexes report every failure as one of the sync, so as a best-effort
    dependent they never raise. -/
theorem indexes_never_surface {σ K V : Type} (indexes : List (Index σ K V))
    (op : Index σ K V → M σ Unit) (what name step : String) (beforeCommit : Bool) (s : σ) :
    ¬ ∃ e, (settle name step .bestEffort beforeCommit () (each indexes op what) s).1 = .error e := by
  rw [settle_bestEffort_error]
  intro ⟨e, he, hu⟩
  have hraises : Raises (fun e => e.isUnsupported = false) (each indexes op what) := by
    refine Raises.bind ?_ fun failures => ?_
    · have hnever : Raises (fun _ => False) (eachFailure indexes op) := by
        unfold eachFailure
        refine Raises.foldlM (fun failures i => Raises.bind (fun s e h => by cases h) fun r => ?_) _
        split <;> exact Raises.pure _
      exact fun s e h => (hnever s e h).elim
    · split
      · exact Raises.pure _
      · exact Raises.raise rfl
  rw [hraises s e he] at hu
  cases hu

namespace Composition

theorem quietBelow_iff {K V : Type} (c : Composition K V) (h : ¬ c.Composed) (s s' : c.WatchedState) :
    c.QuietBelow s s' ↔ c.Quiet s s' := by
  induction c with
  | leaf l => exact Iff.rfl
  | imap c f g ih => exact ih h s s'
  | imapKeys dec c f g ih => exact ih h s s'
  | node name zip P n part dec child declared shape m index policy assemble ih =>
    exact absurd trivial h

/-- Where a target of `c` refused a write, `c` raises a refusal unless it is a composition. -/
theorem raises_refusal {K V : Type} [DecidableEq K] (c : Composition K V) (op : RecordOp K V)
    (hw : op.isWrite = true) (s : c.WatchedState)
    (hrefused : ¬ c.QuietBelow s (op.run c.watchedStore s).2) :
    (∃ e, (op.run c.watchedStore s).1 = .error e ∧ e.isUnsupported = true) ↔ ¬ c.Composed := by
  constructor
  · intro ⟨e, he, hu⟩ hcomposed
    exact hrefused (quietBelow_of_unsupported c hcomposed op hw s e he hu)
  · intro hplain
    rw [quietBelow_iff c hplain] at hrefused
    have hsharp := (sharp_of_not_composed c hplain).writes.op (sharp_closed c.Quiet) op s
    exact hsharp.resolve_left hrefused

/-- Where a target below a best-effort dependent or a filled target refuses a write, the
    failure surfaces from it if and only if it is no composition. Where no target in a tree
    that drops failures is one, a refusal anywhere surfaces from the outermost operation. -/
theorem refusal_surfaces {K V : Type} [DecidableEq K] (c : Composition K V) :
    (∀ op : RecordOp K V, op.isWrite = true → ∀ s,
      ¬ c.QuietBelow s (op.run c.watchedStore s).2 → ∀ name what beforeCommit,
      ((∃ e, (settle name what .bestEffort beforeCommit () (op.run c.watchedStore) s).1 = .error e) ↔
        ¬ c.Composed)) ∧
    (∀ ws ttl s, ¬ c.QuietBelow s (c.watchedStore.batchWriteIfUnchanged ws ttl s).2 →
      ((∃ e, (tryFill (c.watchedStore.batchWriteIfUnchanged ws ttl) s).1 = .error e) ↔
        ¬ c.Composed)) ∧
    (c.Direct →
      (∀ (op : RecordOp K V) s s', op.run c.watchedStore s = (.ok (), s') → c.Quiet s s') ∧
      (∀ key s v s', c.watchedStore.get key s = (.ok v, s') → c.Quiet s s') ∧
      ∀ keys s d s', c.watchedStore.batchGet keys s = (.ok d, s') → c.Quiet s s') := by
  refine ⟨fun op hw s hrefused name what beforeCommit => ?_, fun ws ttl s hrefused => ?_, fun hdirect => ?_⟩
  · rw [settle_bestEffort_error]
    exact raises_refusal c op hw s hrefused
  · have hsame : ((RecordOp.writeIfUnchanged ws ttl).run c.watchedStore s).2 =
        (c.watchedStore.batchWriteIfUnchanged ws ttl s).2 := by
      show (Functor.discard (c.watchedStore.batchWriteIfUnchanged ws ttl) s).2 = _
      rw [discard_apply]
    have hop := raises_refusal c (.writeIfUnchanged ws ttl) rfl s (by rw [hsame]; exact hrefused)
    rw [tryFill_error, ← hop]
    exact exists_congr fun e => and_congr_left fun _ => (discard_error _ s e).symm
  · have hquiet := quiet_of_direct c hdirect
    exact ⟨fun op s s' => hquiet.writes.op (lands_closed c.Quiet) op s () s', fun key s v s' => hquiet.get key s v s',
      fun keys s d s' => hquiet.batchGet keys s d s'⟩

/-! ## A copy that cannot be written -/

/-- A memory store that refuses every write. -/
def readOnly : Composition (List Char) String :=
  leaf ⟨MemoryRoot Char String, { (MemoryKvBackend.plain String).store with
    set := fun _ _ _ => raise (.unsupported "read-only")
    batchSet := fun _ _ => raise (.unsupported "read-only")
    batchWriteIfUnchanged := fun _ _ => raise (.unsupported "read-only") }⟩

theorem refusal_surfaces_readOnly :
    let s : readOnly.WatchedState := (.empty 0, 0)
    let ws : Dict (List Char) (ConditionalWrite String) :=
      Dict.single ['a'] ⟨Versioned.absent, .put "x", none⟩
    (∃ e, (settle "secondary" "set" .bestEffort false ()
        ((RecordOp.set ['a'] "x" .none).run readOnly.watchedStore) s).1 = .error e) ∧
    (∃ e, (tryFill (readOnly.watchedStore.batchWriteIfUnchanged ws none) s).1 = .error e) ∧
    ∀ s', (RecordOp.delete ['a']).run readOnly.watchedStore s = (.ok (), s') → readOnly.Quiet s s' := by
  have h := refusal_surfaces readOnly
  refine ⟨(h.1 (.set ['a'] "x" .none) rfl _ (fun hq => ?_) _ _ _).mpr id,
    (h.2.1 _ none _ fun hq => ?_).mpr id, fun s' => (h.2.2 trivial).1 (.delete ['a']) _ s'⟩
  · cases hq
  · cases hq

/-- A copy that is itself two copies, the second of them read-only. -/
def halfReadOnly : Composition (List Char) String :=
  mirror (leaf (memoryLeaf (MemoryKvBackend.plain String))) readOnly .required

/-- It is kept on a best-effort basis. -/
def unnoticed : Composition (List Char) String :=
  mirror (leaf (memoryLeaf (MemoryKvBackend.plain String))) halfReadOnly .bestEffort

/-- The set returns, and a store below the best-effort copy refused it. -/
theorem unnoticed_set_returns : unnoticed.Constructed ∧
    ∃ s s' : unnoticed.WatchedState,
      unnoticed.watchedStore.set ['a'] "x" .none s = (.ok (), s') ∧ ¬ unnoticed.Quiet s s' := by
  have hbuilt : halfReadOnly.Constructed :=
    ⟨fun | ⟨0, _⟩ => rfl | ⟨1, _⟩ => rfl, rfl, fun | ⟨0, _⟩ => trivial | ⟨1, _⟩ => trivial⟩
  refine ⟨⟨fun | ⟨0, _⟩ => rfl | ⟨1, _⟩ => rfl, rfl, fun | ⟨0, _⟩ => trivial | ⟨1, _⟩ => hbuilt⟩, ?_⟩
  let inner : halfReadOnly.WatchedState := (pairState (.empty 0, 0) (.empty 0, 0), 0)
  let start : unnoticed.WatchedState := (pairState (.empty 0, 0) inner, 0)
  refine ⟨start, (unnoticed.watchedStore.set ['a'] "x" .none start).2, rfl, fun hquiet => ?_⟩
  -- The read-only copy counted a refusal.
  have hcount := (hquiet.1.1 1).1.1 1
  cases hcount

end Composition

end Kvtsjl
