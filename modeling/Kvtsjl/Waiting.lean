import Kvtsjl.Compose
import Kvtsjl.Kinds
import Kvtsjl.OpSteps

/-
  What waits for the caller's commit.
  A node whose authority defers its writes neither writes nor removes a dependent that is
  durable at once, and removes no durable component, before the flush. `Waits` says so of
  every node of a tree, and every operation keeps it. Two things break it: a view does not
  say that the store behind it defers, and an existence check may fill a cache.
-/

namespace Kvtsjl

open Assoc (Dict)
open Effects Prog

/-- A leaf has no queue of its own, and nothing beneath it. -/
structure Leaf.Queueless {K V : Type} (l : Leaf K V) : Prop where
  pending : ∀ s, l.store.pendingIndexSyncs s = 0
  flush : l.store.flushIndexSyncs = pure ()
  discard : l.store.discardIndexSyncs = pure ()

namespace Composition

/-! ## Who defers -/

/-- The tree's writes wait for the caller's commit. Those of a node do where those of a
    child it commits to do. -/
def Defers : {K V : Type} → Composition K V → Prop
  | _, _, .leaf l => l.store.writesAreDeferred = true
  | _, _, .imap c _ _ => c.Defers
  | _, _, .imapKeys _ c _ _ => c.Defers
  | _, _, .node _ _ _ _ _ _ child declared _ _ _ _ _ =>
    ∃ i, ((declared i).role = .component ∨ (declared i).role = .authority) ∧ (child i).Defers

/-- The writes of the node's authority wait. -/
def AuthorityDefers {K : Type} {n : Nat} {part : Fin n → Type} (child : ∀ i, Composition K (part i))
    (declared : Fin n → Declared) : Prop := ∃ i, (declared i).role = .authority ∧ (child i).Defers

/-- No view stands over a store that defers. -/
def Forwards : {K V : Type} → Composition K V → Prop
  | _, _, .leaf _ => True
  | _, _, .imap c _ _ => ¬ c.Defers ∧ c.Forwards
  | _, _, .imapKeys _ c _ _ => ¬ c.Defers ∧ c.Forwards
  | _, _, .node _ _ _ _ _ _ child _ _ _ _ _ _ => ∀ i, (child i).Forwards

/-- A node says that it defers where a child it commits to does. -/
theorem deferred_iff {K V P : Type} [DecidableEq K] {n m : Nat} {part : Fin n → Type}
    [∀ i, DecidableEq (part i)] {child : ∀ i, Composition K (part i)} {declared : Fin n → Declared}
    {shape : ∀ i, Shape V P (part i)} {index : Fin m → IndexLeaf K V}
    {indexPolicy : Option SyncPolicy} {assemble : Option (Parts V P → Option V)}
    (h : ∀ i, (child i).store.writesAreDeferred = true ↔ (child i).Defers) :
    (topologyOf child declared shape index indexPolicy assemble).deferred = true ↔
      ∃ i, ((declared i).role = .component ∨ (declared i).role = .authority) ∧ (child i).Defers := by
  have hat : ∀ i, (mediaTarget (fun i => (child i).store) declared shape
      (fun j => (index j).index) indexPolicy (some i)).writesAreDeferred = true ↔ (child i).Defers := by
    intro i
    show ((shape i).target (declared i) ((child i).store.zoom _)).writesAreDeferred = true ↔ _
    rw [Shape.target_writesAreDeferred]
    exact h i
  unfold Topology.deferred Topology.committing
  rw [byRole_eq, List.any_map, List.any_eq_true]
  constructor
  · intro ⟨p, hp, hd⟩
    have hrole := ((mem_placesOf _ _ _).mp hp).2
    cases p with
    | none => cases hd
    | some i =>
      refine ⟨i, ?_, (hat i).mp hd⟩
      rcases List.mem_cons.mp hrole with hr | hr
      · exact .inl hr
      · exact .inr (List.mem_singleton.mp hr)
  · intro ⟨i, hrole, hd⟩
    refine ⟨some i, (mem_placesOf _ _ _).mpr ⟨mem_nodePlaces _ _ i, ?_⟩, (hat i).mpr hd⟩
    show (declared i).role ∈ _
    rcases hrole with hr | hr <;> rw [hr] <;> simp

/-- Where every view forwards what it stands over, a store says whether it defers. -/
theorem defers_iff {K V : Type} (c : Composition K V) (h : c.Forwards) :
    ∀ [DecidableEq K], c.store.writesAreDeferred = true ↔ c.Defers := by
  induction c with
  | leaf l => exact Iff.rfl
  | imap c f g ih =>
    intro _
    exact iff_of_false Bool.false_ne_true h.1
  | imapKeys dec c f g ih =>
    intro _
    exact iff_of_false Bool.false_ne_true h.1
  | node name zip P n part dec child declared shape m index policy assemble ih =>
    intro _
    have hnode : (topologyOf child declared shape index policy assemble).deferred = true ↔ _ :=
      deferred_iff fun i => ih i (h i)
    cases zip <;> exact hnode

/-! ## What has not happened -/

/-- A read of the store. It may drop what it finds expired. -/
def Read {σ K V : Type} (store : KvStore σ K V) (s s' : σ) : Prop :=
  (∃ k, s' = (store.get k s).2) ∨ (∃ ks, s' = (store.batchGet ks s).2) ∨
    (∃ k, s' = (store.existsKey k s).2) ∨ (∃ ks, s' = (store.batchExists ks s).2) ∨
    (∃ k, s' = (store.stat k s).2) ∨ ∃ ks, s' = (store.batchStat ks s).2

theorem reads_read {σ K V : Type} (store : KvStore σ K V) {R : σ → σ → Prop}
    (h : ∀ s s', Read store s s' → R s s') : store.Reads (Moves R) :=
  ⟨fun k _ => h _ _ (.inl ⟨k, rfl⟩), fun ks _ => h _ _ (.inr (.inl ⟨ks, rfl⟩)),
    fun k _ => h _ _ (.inr (.inr (.inl ⟨k, rfl⟩))), fun ks _ => h _ _ (.inr (.inr (.inr (.inl ⟨ks, rfl⟩)))),
    fun k _ => h _ _ (.inr (.inr (.inr (.inr (.inl ⟨k, rfl⟩))))),
    fun ks _ => h _ _ (.inr (.inr (.inr (.inr (.inr ⟨ks, rfl⟩)))))⟩

/-- No store of the tree has been written, and no record removed from one. -/
def Unwritten : {K V : Type} → (c : Composition K V) → c.State → c.State → Prop
  | _, _, .leaf l, s, s' => Relation.ReflTransGen (Read l.store) s s'
  | _, _, .imap c _ _, s, s' => c.Unwritten s s'
  | _, _, .imapKeys _ c _ _, s, s' => c.Unwritten s s'
  | _, _, .node _ _ _ _ _ _ child _ _ _ _ _ _, s, s' =>
    (∀ i, (child i).Unwritten (s.media.1 i) (s'.media.1 i)) ∧ s'.media.2 = s.media.2

/-- The store of the target has been written or read, if anything. No record was removed
    from it. -/
def Written {S K V T P : Type} (t : Target S K V P) (store : KvStore S K T) : S → S → Prop :=
  Relation.ReflTransGen fun s s' =>
    (∃ k v o, s' = (t.write k v o s).2) ∨ (∃ items o, s' = (t.batchWrite items o s).2) ∨ Read store s s'

/-- At every node whose authority defers, the dependents that are durable at once are
    unwritten, and no record was removed from a durable component. -/
def Waits : {K V : Type} → [DecidableEq K] → (c : Composition K V) → c.State → c.State → Prop
  | _, _, _, .leaf _, _, _ => True
  | _, _, _, .imap c _ _, s, s' => c.Waits s s'
  | _, _, _, .imapKeys _ c _ _, s, s' => c.Waits s s'
  | _, V, _, .node _ _ P _ _ _ child declared shape _ _ _ _, s, s' =>
    (∀ i, (child i).Waits (s.media.1 i) (s'.media.1 i)) ∧
      (AuthorityDefers child declared →
        (∀ i, (declared i).role = .dependent → ¬ (child i).Defers →
          (child i).Unwritten (s.media.1 i) (s'.media.1 i)) ∧
        s'.media.2 = s.media.2 ∧
        ∀ i, (declared i).role = .component → ¬ (child i).Defers →
          Written ((shape i).target (declared i) (child i).store : AnyTarget _ _ V P) (child i).store
            (s.media.1 i) (s'.media.1 i))

theorem Unwritten.refl {K V : Type} (c : Composition K V) (s : c.State) : c.Unwritten s s := by
  induction c with
  | leaf l => exact Relation.ReflTransGen.refl
  | imap c f g ih => exact ih s
  | imapKeys dec c f g ih => exact ih s
  | node name zip P n part dec child declared shape m index policy assemble ih =>
    exact ⟨fun i => ih i _, rfl⟩

theorem Unwritten.trans {K V : Type} {c : Composition K V} {s s' s'' : c.State}
    (h : c.Unwritten s s') (h' : c.Unwritten s' s'') : c.Unwritten s s'' := by
  induction c with
  | leaf l => exact Relation.ReflTransGen.trans h h'
  | imap c f g ih => exact ih h h'
  | imapKeys dec c f g ih => exact ih h h'
  | node name zip P n part dec child declared shape m index policy assemble ih =>
    exact ⟨fun i => ih i (h.1 i) (h'.1 i), h'.2.trans h.2⟩

instance {K V : Type} (c : Composition K V) : Std.Refl c.Unwritten := ⟨Unwritten.refl c⟩

instance {K V : Type} (c : Composition K V) : IsTrans c.State c.Unwritten :=
  ⟨fun _ _ _ => Unwritten.trans⟩

theorem Waits.refl {K V : Type} (c : Composition K V) : ∀ [DecidableEq K] (s : c.State), c.Waits s s := by
  induction c with
  | leaf l => exact fun _ => trivial
  | imap c f g ih => exact ih
  | imapKeys dec c f g ih => exact ih
  | node name zip P n part dec child declared shape m index policy assemble ih =>
    intro _ s
    exact ⟨fun i => ih i _, fun _ => ⟨fun _ _ _ => Unwritten.refl _ _, rfl, fun _ _ _ => .refl⟩⟩

theorem Waits.trans {K V : Type} {c : Composition K V} : ∀ [DecidableEq K] {s s' s'' : c.State},
    c.Waits s s' → c.Waits s' s'' → c.Waits s s'' := by
  induction c with
  | leaf l => exact fun _ _ => trivial
  | imap c f g ih => exact ih
  | imapKeys dec c f g ih => exact ih
  | node name zip P n part dec child declared shape m index policy assemble ih =>
    intro _ s s' s'' h h'
    refine ⟨fun i => ih i (h.1 i) (h'.1 i), fun hdefers => ?_⟩
    obtain ⟨hdependents, hindexes, hcomponents⟩ := h.2 hdefers
    obtain ⟨hdependents', hindexes', hcomponents'⟩ := h'.2 hdefers
    exact ⟨fun i hr hd => (hdependents i hr hd).trans (hdependents' i hr hd),
      hindexes'.trans hindexes, fun i hr hd => (hcomponents i hr hd).trans (hcomponents' i hr hd)⟩

instance {K V : Type} [DecidableEq K] (c : Composition K V) : Std.Refl c.Waits := ⟨Waits.refl c⟩

instance {K V : Type} [DecidableEq K] (c : Composition K V) : IsTrans c.State c.Waits :=
  ⟨fun _ _ _ => Waits.trans⟩

/-! ## Reads that fill nothing that waits -/

/-- No read of the tree fills anything. -/
def Unfilled : {K V : Type} → Composition K V → Prop
  | _, _, .leaf _ => True
  | _, _, .imap c _ _ => c.Unfilled
  | _, _, .imapKeys _ c _ _ => c.Unfilled
  | _, _, .node _ _ _ _ _ _ child declared shape _ _ _ _ =>
    ∀ i, (child i).Unfilled ∧ ((shape i).isWhole = true → (declared i).fill = false)

/-- No read of the tree fills a target that waits for a commit, or anything below one. -/
def FillsNone : {K V : Type} → Composition K V → Prop
  | _, _, .leaf _ => True
  | _, _, .imap c _ _ => c.FillsNone
  | _, _, .imapKeys _ c _ _ => c.FillsNone
  | _, _, .node _ _ _ _ _ _ child declared shape _ _ _ _ =>
    (∀ i, (child i).FillsNone) ∧ (AuthorityDefers child declared → ∀ i, ¬ (child i).Defers →
      ((declared i).role = .dependent ∨ (declared i).role = .component →
        (shape i).isWhole = true → (declared i).fill = false) ∧
      ((declared i).role = .dependent → (child i).Unfilled))

/-- No existence check fills one. That of an assembled record reads its parts. -/
def ProbesNone : {K V : Type} → Composition K V → Prop
  | _, _, .leaf _ => True
  | _, _, .imap c _ _ => c.ProbesNone
  | _, _, .imapKeys _ c _ _ => c.ProbesNone
  | _, _, .node _ _ _ _ _ _ child declared shape _ _ _ _ =>
    (∀ i, (child i).ProbesNone) ∧
      ((∃ i, (shape i).isWhole = false) → ∀ i, (child i).FillsNone) ∧
      (AuthorityDefers child declared → ∀ i, ¬ (child i).Defers → (declared i).role = .dependent →
        (child i).Unfilled)

/-- A record with no commit point is probed before it is removed. No such probe fills a
    target that waits for a commit. -/
def RemovesQuietly : {K V : Type} → Composition K V → Prop
  | _, _, .leaf _ => True
  | _, _, .imap c _ _ => c.RemovesQuietly
  | _, _, .imapKeys _ c _ _ => c.RemovesQuietly
  | _, _, .node _ _ _ _ _ _ child declared _ _ _ _ _ =>
    (∀ i, (child i).RemovesQuietly) ∧ ((∀ i, (declared i).role ≠ .authority) →
      ∀ i, (declared i).role = .component → (child i).ProbesNone)

section Node

variable {K V P : Type} [DecidableEq K] {n m : Nat} {part : Fin n → Type} [∀ i, DecidableEq (part i)]
  {child : ∀ i, Composition K (part i)} {declared : Fin n → Declared}
  {shape : ∀ i, Shape V P (part i)} {index : Fin m → IndexLeaf K V}
  {indexPolicy : Option SyncPolicy} {assemble : Option (Parts V P → Option V)}

/-- What `Waits` says of a node, of its media. -/
def MediaWaits (child : ∀ i, Composition K (part i)) (declared : Fin n → Declared)
    (shape : ∀ i, Shape V P (part i)) (index : Fin m → IndexLeaf K V)
    (s s' : Media (fun i => (child i).State) fun j => (index j).State) : Prop :=
  (∀ i, (child i).Waits (s.1 i) (s'.1 i)) ∧
    (AuthorityDefers child declared →
      (∀ i, (declared i).role = .dependent → ¬ (child i).Defers → (child i).Unwritten (s.1 i) (s'.1 i)) ∧
      s'.2 = s.2 ∧
      ∀ i, (declared i).role = .component → ¬ (child i).Defers →
        Written ((shape i).target (declared i) (child i).store : AnyTarget _ K V P) (child i).store
          (s.1 i) (s'.1 i))

instance : Std.Refl (MediaWaits child declared shape index) :=
  ⟨fun _ => ⟨fun _ => Waits.refl _ _,
    fun _ => ⟨fun _ _ _ => Unwritten.refl _ _, rfl, fun _ _ _ => .refl⟩⟩⟩

instance : IsTrans _ (MediaWaits child declared shape index) where
  trans _ _ _ h h' := by
    refine ⟨fun i => (h.1 i).trans (h'.1 i), fun hdefers => ?_⟩
    obtain ⟨hdependents, hindexes, hcomponents⟩ := h.2 hdefers
    obtain ⟨hdependents', hindexes', hcomponents'⟩ := h'.2 hdefers
    exact ⟨fun i hr hd => (hdependents i hr hd).trans (hdependents' i hr hd),
      hindexes'.trans hindexes, fun i hr hd => (hcomponents i hr hd).trans (hcomponents' i hr hd)⟩

/-- Where a child moves as it waits, and as its role lets it, so does the node. -/
theorem mediaWaits_child (i : Fin n)
    (s : Media (fun i => (child i).State) fun j => (index j).State) (t' : (child i).State)
    (hwaits : (child i).Waits (s.1 i) t')
    (hrole : AuthorityDefers child declared → ¬ (child i).Defers →
      ((declared i).role = .dependent → (child i).Unwritten (s.1 i) t') ∧
      ((declared i).role = .component →
        Written ((shape i).target (declared i) (child i).store : AnyTarget _ K V P) (child i).store
          (s.1 i) t')) :
    MediaWaits child declared shape index s ((Media.child i).set s t') := by
  have hself : ((Media.child i).set s t').1 i = t' := by
    show Function.update s.1 i t' i = t'
    rw [Function.update_self]
  have hother : ∀ j, j ≠ i → ((Media.child i).set s t').1 j = s.1 j := by
    intro j hj
    show Function.update s.1 i t' j = s.1 j
    rw [Function.update_of_ne hj]
  refine ⟨fun j => ?_, fun hdefers => ⟨fun j hr hd => ?_, rfl, fun j hr hd => ?_⟩⟩
  · by_cases hj : j = i
    · subst hj
      rw [hself]
      exact hwaits
    · rw [hother j hj]
      exact Waits.refl _ _
  · by_cases hj : j = i
    · subst hj
      rw [hself]
      exact (hrole hdefers hd).1 hr
    · rw [hother j hj]
      exact Unwritten.refl _ _
  · by_cases hj : j = i
    · subst hj
      rw [hself]
      exact (hrole hdefers hd).2 hr
    · rw [hother j hj]
      exact .refl

/-- A child that may be moved freely. -/
theorem mediaWaits_free (i : Fin n)
    (hfree : AuthorityDefers child declared → (declared i).role = .dependent ∨
      (declared i).role = .component → (child i).Defers) {α : Type} {m : M (child i).State α}
    (h : Moves (child i).Waits m) :
    Moves (MediaWaits child declared shape index) ((Media.child i).zoom m) := by
  intro s
  refine mediaWaits_child i s _ (h _) fun hdefers hd => ⟨fun hr => ?_, fun hr => ?_⟩
  · exact absurd (hfree hdefers (.inl hr)) hd
  · exact absurd (hfree hdefers (.inr hr)) hd

/-- The reads of a child. A dependent that is durable at once must not be written by them. -/
theorem reads_at_child (i : Fin n) (hreads : (child i).store.Reads (Moves (child i).Waits))
    (hunwritten : AuthorityDefers child declared → ¬ (child i).Defers → (declared i).role = .dependent →
      (child i).store.Reads (Moves (child i).Unwritten)) :
    ((child i).store.zoom (Media.child i :
      Lens (Media (fun i => (child i).State) fun j => (index j).State) _)).Reads
        (Moves (MediaWaits child declared shape index)) := by
  have hall : (child i).store.Reads (Moves fun t t' => (child i).Waits t t' ∧
      (AuthorityDefers child declared → ¬ (child i).Defers →
        ((declared i).role = .dependent → (child i).Unwritten t t') ∧ Read (child i).store t t')) := by
    have hread : (child i).store.Reads (Moves (Read (child i).store)) := reads_read _ fun _ _ h => h
    exact ⟨fun k s => ⟨hreads.get k s, fun h h' => ⟨fun hr => (hunwritten h h' hr).get k s, hread.get k s⟩⟩,
      fun ks s => ⟨hreads.batchGet ks s, fun h h' =>
        ⟨fun hr => (hunwritten h h' hr).batchGet ks s, hread.batchGet ks s⟩⟩,
      fun k s => ⟨hreads.existsKey k s, fun h h' =>
        ⟨fun hr => (hunwritten h h' hr).existsKey k s, hread.existsKey k s⟩⟩,
      fun ks s => ⟨hreads.batchExists ks s, fun h h' =>
        ⟨fun hr => (hunwritten h h' hr).batchExists ks s, hread.batchExists ks s⟩⟩,
      fun k s => ⟨hreads.stat k s, fun h h' => ⟨fun hr => (hunwritten h h' hr).stat k s, hread.stat k s⟩⟩,
      fun ks s => ⟨hreads.batchStat ks s, fun h h' =>
        ⟨fun hr => (hunwritten h h' hr).batchStat ks s, hread.batchStat ks s⟩⟩⟩
  refine hall.zoom _ fun hm s => ?_
  obtain ⟨hwaits, hrole⟩ := hm (s.1 i)
  exact mediaWaits_child i s _ hwaits fun h h' =>
    ⟨(hrole h h').1, fun _ => .single (.inr (.inr (hrole h h').2))⟩

/-- The node has a commit point of its own where one of its places is its authority. -/
theorem authority_none {i : Fin n} (h : (topologyOf child declared shape index indexPolicy
    assemble).authority = none) : (declared i).role ≠ .authority := by
  intro hr
  unfold Topology.authority at h
  rw [List.find?_eq_none] at h
  refine h (mediaTarget (fun i => (child i).store) declared shape (fun j => (index j).index)
    indexPolicy (some i)) ?_ ?_
  · rw [all_eq]
    exact List.mem_map_of_mem (mem_nodePlaces _ _ i)
  · rw [nodeTarget_role]
    exact decide_eq_true hr

variable (hdeferred : ∀ i, (child i).store.writesAreDeferred = true ↔ (child i).Defers)
  (hwrites : ∀ i, (child i).store.Writes (Moves (child i).Waits))

include hwrites in
theorem target_waits (i : Fin n) : ((shape i).target (declared i) (child i).store :
    AnyTarget _ K V P).Writes (Moves (child i).Waits) :=
  Shape.target_writes (moves_closed _) _ _ (hwrites i)

include hdeferred hwrites in
/-- What follows the commit point waits, unless its own target waits for the same commit. -/
theorem syncOne_waits {p : Option (Fin n)} (what : String) (op : SyncOp K V) :
    let T := topologyOf child declared shape index indexPolicy assemble
    Moves (fun s s' : Node _ K V P => MediaWaits child declared shape index s.media s'.media)
      (T.syncOne (mediaTarget (fun i => (child i).store) declared shape (fun j => (index j).index)
        indexPolicy p) what op none) := by
  intro T
  have hT : AuthorityDefers child declared → T.deferred = true :=
    fun ⟨i, hr, hd⟩ => (deferred_iff hdeferred).mpr ⟨i, .inr hr, hd⟩
  unfold Topology.syncOne Topology.runSync
  split
  · exact fun s => Std.Refl.refl s.media
  · next hnow =>
    refine moves_onMedia fun s syncs => moves_settle ?_ _ _ _ _ _ s
    cases p with
    | none =>
      -- The indexes never defer, so a node that runs them now does not either.
      have hnot : ¬ AuthorityDefers child declared := by
        intro hdefers
        rw [hT hdefers] at hnow
        exact hnow rfl
      intro s
      rw [mediaTarget_indexes, on_zoom_target]
      exact ⟨fun i => Waits.refl _ _, fun hdefers => absurd hdefers hnot⟩
    | some i =>
      rw [mediaTarget_child, on_zoom_target]
      refine mediaWaits_free i (fun hdefers _ => ?_)
        ((target_waits hwrites i).on (moves_closed _) op)
      rw [hT hdefers, Bool.true_and, Bool.not_eq_true, Bool.not_eq_false'] at hnow
      have hsays : ((shape i).target (declared i) ((child i).store.zoom _) : AnyTarget (Media
          (fun i => (child i).State) fun j => (index j).State) K V P).writesAreDeferred = true := hnow
      rw [Shape.target_writesAreDeferred] at hsays
      exact (hdeferred i).mp hsays

omit hdeferred hwrites in
/-- A committing child moves as it waits, and a component is written. -/
theorem committing_waits {i : Fin n} (hr : (declared i).role = .component ∨ (declared i).role = .authority)
    {m : M (child i).State Unit} (h : Moves (child i).Waits m)
    (hstep : ∀ s, Written ((shape i).target (declared i) (child i).store : AnyTarget _ K V P)
      (child i).store s (m s).2) :
    Moves (MediaWaits child declared shape index) ((Media.child i).zoom m) := by
  intro s
  refine mediaWaits_child i s _ (h _) fun _ _ => ⟨fun hd => ?_, fun _ => hstep _⟩
  rcases hr with hr | hr <;> exact absurd (hd.symm.trans hr) Role.noConfusion

include hdeferred hwrites in
/-- The operations that change records keep what waits waiting. -/
theorem writers_wait (hprobe : (∀ i, (declared i).role ≠ .authority) → ∀ i,
      (declared i).role = .component → ∀ ks, Moves (child i).Waits ((child i).store.batchExists ks)) :
    let T := topologyOf child declared shape index indexPolicy assemble
    Writers T (Moves fun s s' : Node _ K V P => MediaWaits child declared shape index s.media s'.media) := by
  intro T
  have : Std.Refl fun s s' : Node _ K V P => MediaWaits child declared shape index s.media s'.media :=
    ⟨fun s => Std.Refl.refl s.media⟩
  have : IsTrans _ fun s s' : Node _ K V P => MediaWaits child declared shape index s.media s'.media :=
    ⟨fun _ _ _ h h' => IsTrans.trans _ _ _ h h'⟩
  have hnode : ∀ {α : Type} {m : M _ α}, Moves (MediaWaits child declared shape index) m →
      Moves (fun s s' : Node _ K V P => MediaWaits child declared shape index s.media s'.media)
        (Node.onMedia m) := fun hm => moves_onMedia fun s _ => hm s
  have htarget : ∀ i, ((shape i).target (declared i) (child i).store : AnyTarget _ K V P).Writes
      (Moves (child i).Waits) := target_waits hwrites
  -- The places of the targets, by their roles.
  have hcommitting : ∀ t ∈ T.committing, ∃ i, ((declared i).role = .component ∨
      (declared i).role = .authority) ∧ t = ((shape i).target (declared i) (child i).store).zoom
        (Media.child i) := by
    intro t ht
    obtain ⟨p, hp, rfl⟩ := mem_byRole ht
    cases p with
    | none =>
      rcases List.mem_cons.mp hp with h | h
      · cases h
      · cases List.mem_singleton.mp h
    | some i =>
      refine ⟨i, ?_, mediaTarget_child _ _ _ _ _ i⟩
      rcases List.mem_cons.mp hp with h | h
      · exact .inl h
      · exact .inr (List.mem_singleton.mp h)
  have hplace : ∀ t ∈ T.all, ∃ p, t = mediaTarget (fun i => (child i).store) declared shape
      (fun j => (index j).index) indexPolicy p ∧ t.role = placeRole declared p := by
    intro t ht
    rw [all_eq] at ht
    obtain ⟨p, -, rfl⟩ := List.mem_map.mp ht
    exact ⟨p, rfl, nodeTarget_role _ _ _ _ _ p⟩
  have hauthority : ∀ t, T.authority = some t → ∃ i, (declared i).role = .authority ∧
      t = ((shape i).target (declared i) (child i).store).zoom (Media.child i) := by
    intro t ht
    have hfind : T.all.find? (fun t => decide (t.role = .authority)) = some t := ht
    have hr : t.role = .authority := by simpa using List.find?_some hfind
    obtain ⟨p, rfl, hrole⟩ := hplace t (List.mem_of_find?_eq_some hfind)
    rw [hrole] at hr
    cases p with
    | none => cases hr
    | some i => exact ⟨i, hr, mediaTarget_child _ _ _ _ _ i⟩
  have hcomponent : ∀ t ∈ T.components, ∃ i, (declared i).role = .component ∧
      t = ((shape i).target (declared i) (child i).store).zoom (Media.child i) := by
    intro t ht
    obtain ⟨p, rfl, hrole⟩ := hplace t (Writers.components_all ht)
    have hr := of_decide_eq_true (List.mem_filter.mp ht).2
    rw [hrole] at hr
    cases p with
    | none => cases hr
    | some i => exact ⟨i, hr, mediaTarget_child _ _ _ _ _ i⟩
  have hremoved : ∀ t ∈ T.removedNow, ∃ i, (AuthorityDefers child declared →
      (declared i).role = .dependent ∨ (declared i).role = .component → (child i).Defers) ∧
        t = ((shape i).target (declared i) (child i).store).zoom (Media.child i) := by
    intro t ht
    unfold Topology.removedNow at ht
    split at ht
    · next a ha =>
      rw [List.mem_singleton.mp ht]
      obtain ⟨i, hr, rfl⟩ := hauthority a ha
      refine ⟨i, fun _ hrole => ?_, rfl⟩
      rcases hrole with h | h <;> exact absurd (h.symm.trans hr) Role.noConfusion
    · next ha =>
      obtain ⟨i, -, rfl⟩ := hcomponent t ht
      exact ⟨i, fun ⟨j, hj, _⟩ => absurd hj (authority_none ha), rfl⟩
  exact {
    closed := moves_closed _
    write := by
      intro t ht k v o
      obtain ⟨i, hr, rfl⟩ := hcommitting t ht
      exact hnode (moves_runCommitting (committing_waits hr ((htarget i).write k v o)
        fun s => .single (.inl ⟨k, v, o, rfl⟩)) _ _)
    batchWrite := by
      intro t ht items o
      obtain ⟨i, hr, rfl⟩ := hcommitting t ht
      exact hnode (moves_runCommitting (committing_waits hr ((htarget i).batchWrite items o)
        fun s => .single (.inr (.inl ⟨items, o, rfl⟩))) _ _)
    conditional := by
      intro t ht ws o
      obtain ⟨i, hr, rfl⟩ := hauthority t ht
      refine hnode (moves_runCommitting (mediaWaits_free i (fun _ hrole => ?_)
        ((htarget i).conditional ws o)) _ _)
      rcases hrole with h | h <;> exact absurd (h.symm.trans hr) Role.noConfusion
    removed := by
      intro t ht r k
      obtain ⟨i, hfree, rfl⟩ := hremoved t ht
      cases r with
      | delete => exact hnode (mediaWaits_free i hfree ((htarget i).delete k))
      | unset => exact hnode (mediaWaits_free i hfree ((htarget i).unset k))
    batchRemoved := by
      intro t ht r ks
      obtain ⟨i, hfree, rfl⟩ := hremoved t ht
      cases r with
      | delete => exact hnode (mediaWaits_free i hfree ((htarget i).batchDelete ks))
      | unset => exact hnode (mediaWaits_free i hfree ((htarget i).batchUnset ks))
    probed := by
      intro ha t ht ks
      obtain ⟨i, hr, rfl⟩ := hcomponent t ht
      refine hnode (mediaWaits_free i (fun ⟨j, hj, _⟩ => absurd hj (authority_none ha)) ?_)
      rw [Shape.target_batchExists]
      exact hprobe (fun j => authority_none ha) i hr ks
    sync := by
      intro t ht what op
      obtain ⟨p, -, rfl⟩ := mem_byRole ht
      exact syncOne_waits hdeferred hwrites what op
    syncRemoval := by
      intro t ht what r ks
      obtain ⟨p, rfl, -⟩ := hplace t (OpSteps.mem_removedAfterCommit ht).1
      exact ⟨syncOne_waits hdeferred hwrites what _, fun k => syncOne_waits hdeferred hwrites what _⟩ }

end Node

/-! ## Reads -/

theorem moves_tryFill {S α : Type} {R : S → S → Prop} [Std.Refl R] [IsTrans S R] {m : M S α}
    (h : Moves R m) : Moves R (tryFill m) := by
  refine Moves.catching (moves_discard h) fun e => ?_
  split
  · exact Moves.raise _
  · exact Moves.pure _

/-- What `Unwritten` says of a node, of its media. -/
def MediaUnwritten {K V : Type} {n m : Nat} {part : Fin n → Type} (child : ∀ i, Composition K (part i))
    (index : Fin m → IndexLeaf K V)
    (s s' : Media (fun i => (child i).State) fun j => (index j).State) : Prop :=
  (∀ i, (child i).Unwritten (s.1 i) (s'.1 i)) ∧ s'.2 = s.2

section Reads

variable {K V P : Type} [DecidableEq K] {n m : Nat} {part : Fin n → Type} [∀ i, DecidableEq (part i)]
  {child : ∀ i, Composition K (part i)} {declared : Fin n → Declared}
  {shape : ∀ i, Shape V P (part i)} {index : Fin m → IndexLeaf K V}
  {indexPolicy : Option SyncPolicy} {assemble : Option (Parts V P → Option V)}

instance : Std.Refl (MediaUnwritten child index) := ⟨fun _ => ⟨fun _ => Unwritten.refl _ _, rfl⟩⟩

instance : IsTrans _ (MediaUnwritten child index) :=
  ⟨fun _ _ _ h h' => ⟨fun i => (h.1 i).trans (h'.1 i), h'.2.trans h.2⟩⟩

omit [DecidableEq K] [∀ i, DecidableEq (part i)] in
theorem unwritten_child (i : Fin n) {α : Type} {m : M (child i).State α}
    (h : Moves (child i).Unwritten m) :
    Moves (MediaUnwritten child index) ((Media.child i).zoom m) := by
  intro s
  refine ⟨fun j => ?_, rfl⟩
  show (child j).Unwritten (s.1 j) (Function.update s.1 i _ j)
  by_cases hj : j = i
  · subst hj
    rw [Function.update_self]
    exact h _
  · rw [Function.update_of_ne hj]
    exact Unwritten.refl _ _

/-- Where no target is filled, the reads of a node write nothing. -/
theorem readers_unwritten (hreads : ∀ i, (child i).store.Reads (Moves (child i).Unwritten))
    (hfill : ∀ i, (shape i).isWhole = true → (declared i).fill = false) :
    Readers (topologyOf child declared shape index indexPolicy assemble)
      (Moves (MediaUnwritten child index)) := by
  refine mediaTopology_readers (moves_closed _)
    (fun i => (hreads i).zoom _ fun hm => unwritten_child i hm) fun t ht hfilled => ?_
  rcases List.mem_append.mp ht with ht | ht
  · obtain ⟨i, -, ht⟩ := List.mem_filterMap.mp ht
    obtain ⟨hwhole, hsame⟩ := Shape.target?_declared _ _ ht
    rw [hsame, hfill i hwhole] at hfilled
    cases hfilled
  · obtain ⟨p, -, rfl⟩ := Option.map_eq_some_iff.mp (Option.mem_toList.mp ht)
    cases hfilled

/-- The reads of a node that fill nothing that waits. -/
theorem readers_wait (hwrites : ∀ i, (child i).store.Writes (Moves (child i).Waits))
    (hreads : ∀ i, ((child i).store.zoom (Media.child i :
      Lens (Media (fun i => (child i).State) fun j => (index j).State) _)).Reads
        (Moves (MediaWaits child declared shape index)))
    (hfill : AuthorityDefers child declared → ∀ i, ¬ (child i).Defers →
      (declared i).role = .dependent ∨ (declared i).role = .component →
        (shape i).isWhole = true → (declared i).fill = false) :
    Readers (topologyOf child declared shape index indexPolicy assemble)
      (Moves (MediaWaits child declared shape index)) := by
  refine mediaTopology_readers (moves_closed _) hreads fun t ht hfilled ws o => moves_tryFill ?_
  rcases List.mem_append.mp ht with ht | ht
  · obtain ⟨i, -, ht⟩ := List.mem_filterMap.mp ht
    obtain ⟨hwhole, hsame⟩ := Shape.target?_declared _ _ ht
    rw [hsame] at hfilled
    have hfree : AuthorityDefers child declared → (declared i).role = .dependent ∨
        (declared i).role = .component → (child i).Defers := by
      intro hdefers hrole
      by_contra hd
      rw [hfill hdefers i hd hrole hwhole] at hfilled
      cases hfilled
    have hchild : t.Writes (Moves (MediaWaits child declared shape index)) :=
      Shape.target?_writes (moves_closed _) _ _
        ((hwrites i).zoom _ fun hm => mediaWaits_free i hfree hm) t ht
    exact hchild.conditional ws o
  · obtain ⟨p, -, rfl⟩ := Option.map_eq_some_iff.mp (Option.mem_toList.mp ht)
    cases hfilled

/-- The existence checks of a node: of a record that is assembled they read its parts, of
    one that is whole they check its targets. -/
theorem probes_wait
    (hparts : (∃ i, (shape i).isWhole = false) → ∀ i, ((child i).store.zoom (Media.child i :
      Lens (Media (fun i => (child i).State) fun j => (index j).State) _)).Reads
        (Moves (MediaWaits child declared shape index)))
    (hprobes : ∀ i ks, Moves (child i).Waits ((child i).store.batchExists ks))
    (hunwritten : AuthorityDefers child declared → ∀ i, ¬ (child i).Defers →
      (declared i).role = .dependent → (child i).store.Reads (Moves (child i).Unwritten))
    (keys : List K) :
    Moves (MediaWaits child declared shape index)
      ((topologyOf child declared shape index indexPolicy assemble).batchExists keys) := by
  refine Readers.batchExists_of (moves_closed _) (fun hassembled keys => ?_) (fun _ t ht ks => ?_) keys
  · have hpiece : ∃ i, (shape i).isWhole = false := by
      have hsome := List.isEmpty_eq_false_iff_exists_mem.mp (Bool.not_eq_true' _ ▸ hassembled)
      obtain ⟨t, ht⟩ := hsome
      obtain ⟨i, -, ht⟩ := List.mem_filterMap.mp ht
      refine ⟨i, ?_⟩
      cases h : shape i with
      | whole =>
        rw [h] at ht
        cases ht
      | piece slot up => rfl
    exact (mediaTopology_partReaders (moves_closed _) (hparts hpiece)).assembleMany keys none
  · rcases List.mem_append.mp ht with ht | ht
    · obtain ⟨i, -, ht⟩ := List.mem_filterMap.mp ht
      rw [Shape.target?_batchExists _ _ ht]
      intro s
      refine mediaWaits_child i s _ (hprobes i ks _) fun hdefers hd => ⟨fun hr => ?_, fun _ => ?_⟩
      · exact (hunwritten hdefers i hd hr).batchExists ks _
      · exact .single (.inr (.inr (.inr (.inr (.inr (.inl ⟨ks, rfl⟩))))))
    · obtain ⟨p, -, rfl⟩ := Option.map_eq_some_iff.mp (Option.mem_toList.mp ht)
      exact (indexesTarget_reads (moves_closed _) _ _).batchExists ks

end Reads

theorem reads_unwritten {K V : Type} (c : Composition K V) (h : c.Unfilled) :
    ∀ [DecidableEq K], c.store.Reads (Moves c.Unwritten) := by
  induction c with
  | leaf l => exact reads_read _ fun _ _ h => Relation.ReflTransGen.single h
  | imap c f g ih =>
    intro _
    exact imapStore_reads (moves_closed c.Unwritten) (ih h) f g
  | imapKeys dec c f g ih =>
    intro _
    exact imapKeysStore_reads (moves_closed c.Unwritten) (ih h) f g
  | node name zip P n part dec child declared shape m index policy assemble ih =>
    intro _
    have hreads := fun i => ih i (h i).1
    have hr : Readers (topologyOf child declared shape index policy assemble)
        (Moves (MediaUnwritten child index)) := readers_unwritten hreads fun i => (h i).2
    cases zip with
    | none => exact topologyStore_reads hr (fun hm => moves_onMedia fun s _ => hm s) name
    | some z =>
      refine zipStore_reads hr (fun hm => moves_onMedia fun s _ => hm s) (mediaTopology_parts
        (moves_closed _) fun i => ?_) z name
      exact (hreads i).zoom _ fun hm => unwritten_child i hm

/-! ## Every operation waits -/

/-- Every operation keeps what waits waiting. So do reads and existence checks that fill
    nothing that waits. -/
theorem waits {K V : Type} (c : Composition K V) (hforwards : c.Forwards) (hquiet : c.RemovesQuietly) :
    ∀ [DecidableEq K], c.store.Writes (Moves c.Waits) ∧
      (c.FillsNone → c.store.Reads (Moves c.Waits)) ∧
      (c.ProbesNone → ∀ ks, Moves c.Waits (c.store.batchExists ks)) := by
  induction c with
  | leaf l =>
    intro _
    have hany : ∀ {α : Type} (m : M l.State α), Moves (leaf l).Waits m := fun _ _ => trivial
    exact ⟨⟨fun _ _ _ => hany _, fun _ _ => hany _, fun _ _ => hany _, fun _ => hany _, fun _ => hany _,
        fun _ => hany _, fun _ => hany _⟩,
      fun _ => ⟨fun _ => hany _, fun _ => hany _, fun _ => hany _, fun _ => hany _, fun _ => hany _,
        fun _ => hany _⟩, fun _ _ => hany _⟩
  | imap c f g ih =>
    intro _
    obtain ⟨hwrites, hreads, hprobes⟩ := ih hforwards.2 hquiet
    have hc : @Closed Exn _ (Moves c.Waits) := moves_closed _
    exact ⟨imapStore_writes hc hwrites f g, fun h => imapStore_reads hc (hreads h) f g, hprobes⟩
  | imapKeys dec c f g ih =>
    intro _
    obtain ⟨hwrites, hreads, hprobes⟩ := ih hforwards.2 hquiet
    have hc : @Closed Exn _ (Moves c.Waits) := moves_closed _
    exact ⟨imapKeysStore_writes hc hwrites f g, fun h => imapKeysStore_reads hc (hreads h) f g,
      fun h ks => hc.map (hprobes h _) _⟩
  | node name zip P n part dec child declared shape m index policy assemble ih =>
    intro _
    have hdeferred := fun i => defers_iff (child i) (hforwards i)
    have hwrites := fun i => (ih i (hforwards i) (hquiet.1 i)).1
    have hw : Writers (topologyOf child declared shape index policy assemble)
        (Moves fun s s' => MediaWaits child declared shape index s.media s'.media) :=
      writers_wait hdeferred hwrites fun ha i hr =>
        (ih i (hforwards i) (hquiet.1 i)).2.2 (hquiet.2 ha i hr)
    refine ⟨?_, fun hfills => ?_, fun hprobes ks => ?_⟩
    · cases zip with
      | none => exact topologyStore_writes hw name
      | some z => exact zipStore_writes hw z name
    · have hchild : ∀ i, ((child i).store.zoom (Media.child i :
          Lens (Media (fun i => (child i).State) fun j => (index j).State) _)).Reads
            (Moves (MediaWaits child declared shape index)) := fun i =>
        reads_at_child i ((ih i (hforwards i) (hquiet.1 i)).2.1 (hfills.1 i)) fun hdefers hd hr =>
          reads_unwritten (child i) ((hfills.2 hdefers i hd).2 hr)
      have hr : Readers (topologyOf child declared shape index policy assemble)
          (Moves (MediaWaits child declared shape index)) :=
        readers_wait hwrites hchild fun hdefers i hd => (hfills.2 hdefers i hd).1
      cases zip with
      | none => exact topologyStore_reads hr (fun hm => moves_onMedia fun s _ => hm s) name
      | some z =>
        exact zipStore_reads hr (fun hm => moves_onMedia fun s _ => hm s)
          (mediaTopology_parts (moves_closed _) hchild) z name
    · have hnode : Moves (MediaWaits child declared shape index)
          ((topologyOf child declared shape index policy assemble).batchExists ks) := by
        refine probes_wait (fun hpiece i => ?_)
          (fun i ks => (ih i (hforwards i) (hquiet.1 i)).2.2 (hprobes.1 i) ks)
          (fun hdefers i hd hr => reads_unwritten (child i) (hprobes.2.2 hdefers i hd hr)) ks
        exact reads_at_child i ((ih i (hforwards i) (hquiet.1 i)).2.1 (hprobes.2.1 hpiece i))
          fun hdefers hd hr => reads_unwritten (child i) (hprobes.2.2 hdefers i hd hr)
      cases zip with
      | none => exact moves_onMedia fun s _ => hnode s
      | some z => exact moves_onMedia fun s _ => hnode s

/-! ## Discarding -/

/-- Every leaf and every index holds what it held. -/
def SameMedia : {K V : Type} → (c : Composition K V) → c.State → c.State → Prop
  | _, _, .leaf _, s, s' => s' = s
  | _, _, .imap c _ _, s, s' => c.SameMedia s s'
  | _, _, .imapKeys _ c _ _, s, s' => c.SameMedia s s'
  | _, _, .node _ _ _ _ _ _ child _ _ _ _ _ _, s, s' =>
    (∀ i, (child i).SameMedia (s.media.1 i) (s'.media.1 i)) ∧ s'.media.2 = s.media.2

/-- Nothing is queued anywhere in the tree. -/
def Idle : {K V : Type} → (c : Composition K V) → c.State → Prop
  | _, _, .leaf _, _ => True
  | _, _, .imap c _ _, s => c.Idle s
  | _, _, .imapKeys _ c _ _, s => c.Idle s
  | _, _, .node _ _ _ _ _ _ child _ _ _ _ _ _, s =>
    s.syncs = [] ∧ ∀ i, (child i).Idle (s.media.1 i)

theorem SameMedia.refl {K V : Type} (c : Composition K V) (s : c.State) : c.SameMedia s s := by
  induction c with
  | leaf l => rfl
  | imap c f g ih => exact ih s
  | imapKeys dec c f g ih => exact ih s
  | node name zip P n part dec child declared shape m index policy assemble ih =>
    exact ⟨fun i => ih i _, rfl⟩

theorem SameMedia.trans {K V : Type} {c : Composition K V} {s s' s'' : c.State}
    (h : c.SameMedia s s') (h' : c.SameMedia s' s'') : c.SameMedia s s'' := by
  induction c with
  | leaf l => exact Eq.trans h' h
  | imap c f g ih => exact ih h h'
  | imapKeys dec c f g ih => exact ih h h'
  | node name zip P n part dec child declared shape m index policy assemble ih =>
    exact ⟨fun i => ih i (h.1 i) (h'.1 i), h'.2.trans h.2⟩

theorem flushAll_idle {S : Type} (flushes : List (M S Unit)) (s : S)
    (h : ∀ f ∈ flushes, f s = (.ok (), s)) (failures : List (String × Exn)) :
    flushAll flushes failures s = (.ok failures, s) := by
  induction flushes with
  | nil => rfl
  | cons f fs ih =>
    unfold flushAll
    rw [bind_ok (attempt_apply f s), h f (by simp)]
    exact ih fun g hg => h g (List.mem_cons_of_mem _ hg)

theorem flushEach_idle {S : Type} (flushes : List (M S Unit)) (s : S)
    (h : ∀ f ∈ flushes, f s = (.ok (), s)) : flushEach flushes s = (.ok (), s) := by
  unfold flushEach
  rw [bind_ok (flushAll_idle flushes s h [])]
  rfl

theorem flushSyncs_idle {S K V P : Type} {n : Node S K V P} (h : n.syncs = []) :
    Topology.flushSyncs n = (.ok (), n) := by
  obtain ⟨media, syncs⟩ := n
  rw [show syncs = [] from h]
  rfl

/-- A node with nothing queued at it or beneath it. -/
theorem flush_node {S K V P : Type} [DecidableEq K] (T : Topology S K V P) (n : Node S K V P)
    (hown : n.syncs = []) (hbeneath : ∀ x ∈ T.children, x.pendingIndexSyncs n.media = 0 ∧
      x.flushIndexSyncs n.media = (.ok (), n.media)) :
    T.pending n = 0 ∧ T.flush n = (.ok (), n) := by
  constructor
  · have hzero : T.children.map (fun x => x.pendingIndexSyncs n.media) = T.children.map fun _ => 0 :=
      List.map_congr_left fun x hx => (hbeneath x hx).1
    unfold Topology.pending
    rw [hown, hzero]
    simp
  · have hchildren : (Node.onMedia (flushEach (T.children.map fun c => c.flushIndexSyncs)) :
        M (Node S K V P) Unit) n = (.ok (), n) := by
      rw [Node.onMedia_apply, flushEach_idle _ n.media fun f hf => ?_]
      obtain ⟨y, hy, rfl⟩ := List.mem_map.mp hf
      exact (hbeneath y hy).2
    refine flushEach_idle [Topology.flushSyncs, Node.onMedia (flushEach _)] n fun f hf => ?_
    rcases List.mem_cons.mp hf with rfl | hf
    · exact flushSyncs_idle hown
    · rw [List.mem_singleton.mp hf]
      exact hchildren

/-- Discard what is queued beneath a node. -/
abbrev discardBeneath {S K V P : Type} [DecidableEq K] (T : Topology S K V P) : M S PUnit :=
  forM T.children fun c => c.discardIndexSyncs

section Queues

variable {K V P : Type} [DecidableEq K] {n m : Nat} {part : Fin n → Type} [∀ i, DecidableEq (part i)]
  {child : ∀ i, Composition K (part i)} {declared : Fin n → Declared}
  {shape : ∀ i, Shape V P (part i)} {index : Fin m → IndexLeaf K V}
  {indexPolicy : Option SyncPolicy} {assemble : Option (Parts V P → Option V)}

/-- What lies beneath a place: the child's own node. -/
def beneath (child : ∀ i, Composition K (part i)) (index : Fin m → IndexLeaf K V) :
    Option (Fin n) → List (SyncNode (Media (fun i => (child i).State) fun j => (index j).State))
  | none => []
  | some i => [((child i).store.zoom (Media.child i)).toSyncNode]

theorem children_eq : (topologyOf child declared shape index indexPolicy assemble).children =
    (nodePlaces shape indexPolicy).flatMap (beneath child index) := by
  unfold Topology.children
  rw [all_eq, List.flatMap_map]
  congr 1
  funext p
  cases p with
  | none => rfl
  | some i =>
    show ((shape i).target (declared i) ((child i).store.zoom _)).children = _
    cases shape i <;> rfl

omit [∀ i, DecidableEq (part i)] in
/-- Each child discards what is queued in it. -/
theorem discard_children (hdiscard : ∀ i s, ∃ s', (child i).store.discardIndexSyncs s = (.ok (), s') ∧
      (child i).SameMedia s s' ∧ (child i).Idle s')
    (ps : List (Option (Fin n))) (s : Media (fun i => (child i).State) fun j => (index j).State) :
    ∃ s', (forM (ps.flatMap (beneath child index)) fun c => c.discardIndexSyncs :
        M (Media (fun i => (child i).State) fun j => (index j).State) PUnit) s = (.ok ⟨⟩, s') ∧
      (∀ i, (child i).SameMedia (s.1 i) (s'.1 i)) ∧ s'.2 = s.2 ∧
      ∀ i, some i ∈ ps ∨ (child i).Idle (s.1 i) → (child i).Idle (s'.1 i) := by
  induction ps generalizing s with
  | nil =>
    refine ⟨s, rfl, fun i => SameMedia.refl _ _, rfl, fun i h => ?_⟩
    exact h.resolve_left List.not_mem_nil
  | cons p ps ih =>
    cases p with
    | none =>
      obtain ⟨s', hrun, hsame, hindexes, hidle⟩ := ih s
      refine ⟨s', hrun, hsame, hindexes, fun i h => hidle i (h.imp_left fun hmem => ?_)⟩
      exact (List.mem_cons.mp hmem).resolve_left (Option.some_ne_none i)
    | some i =>
      obtain ⟨t, hrun, hsame, hidle⟩ := hdiscard i (s.1 i)
      obtain ⟨s', hrest, hsame', hindexes, hidle'⟩ := ih ((Media.child i).set s t)
      have hself : ((Media.child i).set s t).1 i = t := by
        show Function.update s.1 i t i = t
        rw [Function.update_self]
      have hother : ∀ j, j ≠ i → ((Media.child i).set s t).1 j = s.1 j := by
        intro j hj
        show Function.update s.1 i t j = s.1 j
        rw [Function.update_of_ne hj]
      refine ⟨s', ?_, fun j => ?_, hindexes, fun j h => hidle' j ?_⟩
      · have hfirst : ((child i).store.zoom (Media.child i : Lens (Media (fun i => (child i).State)
            fun j => (index j).State) _)).discardIndexSyncs s = (.ok (), (Media.child i).set s t) := by
          show (((child i).store.discardIndexSyncs (s.1 i)).1,
            (Media.child i).set s ((child i).store.discardIndexSyncs (s.1 i)).2) = _
          rw [hrun]
        rw [List.flatMap_cons, beneath, List.singleton_append, List.forM_cons, bind_ok hfirst]
        exact hrest
      · by_cases hj : j = i
        · subst hj
          have hfirst := hsame' j
          rw [hself] at hfirst
          exact hsame.trans hfirst
        · have hrest' := hsame' j
          rw [hother j hj] at hrest'
          exact hrest'
      · by_cases hj : j = i
        · subst hj
          rw [hself]
          exact .inr hidle
        · rw [hother j hj]
          refine h.imp_left fun hmem => (List.mem_cons.mp hmem).resolve_left fun hji => ?_
          exact hj (Option.some.inj hji)

theorem discard_beneath (hdiscard : ∀ i s, ∃ s', (child i).store.discardIndexSyncs s = (.ok (), s') ∧
      (child i).SameMedia s s' ∧ (child i).Idle s')
    (s : Media (fun i => (child i).State) fun j => (index j).State) :
    ∃ s', discardBeneath (topologyOf child declared shape index indexPolicy assemble) s =
        (.ok ⟨⟩, s') ∧
      (∀ i, (child i).SameMedia (s.1 i) (s'.1 i)) ∧ s'.2 = s.2 ∧ ∀ i, (child i).Idle (s'.1 i) := by
  unfold discardBeneath
  rw [children_eq]
  obtain ⟨s', hrun, hsame, hindexes, hidle⟩ :=
    discard_children hdiscard (nodePlaces shape indexPolicy) s
  exact ⟨s', hrun, hsame, hindexes, fun i => hidle i (.inl (mem_nodePlaces _ _ i))⟩

end Queues

/-- A discard empties every queue of the tree and touches no store. -/
theorem discard_idle {K V : Type} (c : Composition K V) (h : c.Leaves Leaf.Queueless) :
    ∀ [DecidableEq K] (s : c.State), ∃ s', c.store.discardIndexSyncs s = (.ok (), s') ∧
      c.SameMedia s s' ∧ c.Idle s' := by
  induction c with
  | leaf l =>
    intro _ s
    have hdiscard : l.store.discardIndexSyncs s = (.ok (), s) := by rw [Leaf.Queueless.discard h]; rfl
    exact ⟨s, hdiscard, rfl, trivial⟩
  | imap c f g ih => exact ih h
  | imapKeys dec c f g ih => exact ih h
  | node name zip P n part dec child declared shape m index policy assemble ih =>
    intro _ s
    let T := topologyOf child declared shape index policy assemble
    obtain ⟨media, hrun, hsame, hindexes, hidle⟩ : ∃ media,
        discardBeneath T s.media = (.ok ⟨⟩, media) ∧
          (∀ i, (child i).SameMedia (s.media.1 i) (media.1 i)) ∧ media.2 = s.media.2 ∧
            ∀ i, (child i).Idle (media.1 i) := discard_beneath (fun i => ih i (h i)) s.media
    have hdiscard : T.discard s = (.ok (), ⟨media, []⟩) := by
      show (Node.onMedia (discardBeneath T) : M (Node _ _ _ P) PUnit) ⟨s.media, []⟩ = _
      rw [Node.onMedia_apply, hrun]
    refine ⟨⟨media, []⟩, ?_, ⟨hsame, hindexes⟩, rfl, hidle⟩
    cases zip <;> exact hdiscard

/-- With nothing queued, a flush does nothing. -/
theorem flush_idle {K V : Type} (c : Composition K V) (h : c.Leaves Leaf.Queueless) :
    ∀ [DecidableEq K] (s : c.State), c.Idle s →
      c.store.pendingIndexSyncs s = 0 ∧ c.store.flushIndexSyncs s = (.ok (), s) := by
  induction c with
  | leaf l =>
    intro _ s _
    have hflush : l.store.flushIndexSyncs s = (.ok (), s) := by rw [Leaf.Queueless.flush h]; rfl
    exact ⟨Leaf.Queueless.pending h s, hflush⟩
  | imap c f g ih =>
    intro _ s hidle
    obtain ⟨hpending, hflush⟩ := ih h s hidle
    exact ⟨hpending, flushEach_idle _ s fun m hm => by rw [List.mem_singleton.mp hm]; exact hflush⟩
  | imapKeys dec c f g ih =>
    intro _ s hidle
    obtain ⟨hpending, hflush⟩ := ih h s hidle
    exact ⟨hpending, flushEach_idle _ s fun m hm => by rw [List.mem_singleton.mp hm]; exact hflush⟩
  | node name zip P n part dec child declared shape m index policy assemble ih =>
    intro _ s hidle
    let T := topologyOf child declared shape index policy assemble
    have hbeneath : ∀ x ∈ T.children, x.pendingIndexSyncs s.media = 0 ∧
        x.flushIndexSyncs s.media = (.ok (), s.media) := by
      intro x hx
      rw [children_eq] at hx
      obtain ⟨p, -, hx⟩ := List.mem_flatMap.mp hx
      cases p with
      | none => cases hx
      | some i =>
        rw [List.mem_singleton.mp hx]
        obtain ⟨hpending, hflush⟩ := ih i (h i) (s.media.1 i) (hidle.2 i)
        refine ⟨hpending, ?_⟩
        show (((child i).store.flushIndexSyncs (s.media.1 i)).1, (Media.child i).set s.media
          ((child i).store.flushIndexSyncs (s.media.1 i)).2) = _
        rw [hflush]
        exact Prod.ext rfl ((Media.child i).set_get s.media)
    have hnode : T.pending s = 0 ∧ T.flush s = (.ok (), s) := flush_node T s hidle.1 hbeneath
    cases zip <;> exact hnode

/-- Before the flush of the root, no node whose authority defers has written or removed a
    dependent that is durable at once, or removed a record from a durable component. A
    discard of the root instead touches no store, and leaves nothing for a flush to do. -/
theorem after_commit_waits {K V : Type} [DecidableEq K] (c : Composition K V)
    (hleaf : c.Leaves Leaf.Queueless) (hforwards : c.Forwards) (hquiet : c.RemovesQuietly)
    (ops : List (RecordOp K V)) (s : c.State) :
    let s' := runActs c.store (ops.map Act.op) s
    c.Waits s s' ∧ ∃ s'', c.store.discardIndexSyncs s' = (.ok (), s'') ∧ c.SameMedia s' s'' ∧
      c.Idle s'' ∧ c.store.pendingIndexSyncs s'' = 0 ∧ c.store.flushIndexSyncs s'' = (.ok (), s'') := by
  intro s'
  have hrun : c.Waits s s' := by
    refine runActs_induction (fun t => c.Waits s t) _ (fun a ha t ht => ?_) (Waits.refl c s)
    obtain ⟨op, -, rfl⟩ := List.mem_map.mp ha
    exact ht.trans ((waits c hforwards hquiet).1.op (moves_closed _) op t)
  obtain ⟨s'', hdiscard, hsame, hidle⟩ := discard_idle c hleaf s'
  exact ⟨hrun, s'', hdiscard, hsame, hidle, flush_idle c hleaf s'' hidle⟩

end Composition

/-! ## Over memory stores -/

namespace MemoryKvBackend

variable {K V α VB : Type} [DecidableEq K] [DecidableEq α] (b : MemoryKvBackend K V α VB)

/-- No entry has been stored. -/
def StoresNone (r r' : MemoryRoot α VB) : Prop := r'.nextId = r.nextId

instance : Std.Refl (@StoresNone α VB _) := ⟨fun _ => rfl⟩

instance : IsTrans _ (@StoresNone α VB _) := ⟨fun _ _ _ h h' => Eq.trans h' h⟩

omit [DecidableEq K] in
theorem liveEntry_storesNone (key : K) : Moves StoresNone (b.liveEntry key) := by
  refine Moves.bind ?_ fun p => Moves.bind (Moves.read _) fun r => ?_
  · unfold physicalKey
    split
    · exact Moves.pure _
    · exact Moves.raise _
  · split
    · exact Moves.pure _
    · split
      · have hlazy : Moves (@StoresNone α VB _) (b.lazyDelete p) := Moves.when fun _ => rfl
        exact hlazy.bind fun _ => Moves.pure _
      · exact Moves.pure _

/-- A read stores nothing. It may drop an expired entry. -/
theorem reads_storeNone : b.store.Reads (Moves StoresNone) := by
  have hc : @Closed Exn _ (Moves (@StoresNone α VB _)) := moves_closed _
  have hget : ∀ key, Moves StoresNone (b.get key) := by
    intro key
    refine (b.liveEntry_storesNone key).bind fun found => ?_
    split
    · exact Moves.pure _
    · refine Moves.bind ?_ fun v => Moves.pure _
      unfold deserializeValue
      split
      · exact Moves.pure _
      · exact Moves.raise _
  have hexists : ∀ key, Moves StoresNone (b.existsKey key) :=
    fun key => hc.map (b.liveEntry_storesNone key) _
  have hstat : ∀ key, Moves StoresNone (b.stat key) := fun key => hc.map (b.liveEntry_storesNone key) _
  refine ⟨hget, fun keys => ?_, hexists, fun keys => ?_, hstat, fun keys => ?_⟩
  · refine hc.foldlM (fun out key _ => hc.bind (hget key) fun r => ?_) _
    split <;> exact Moves.pure _
  · refine hc.foldlM (fun out key _ => hc.bind (hexists key) fun r => ?_) _
    split <;> exact Moves.pure _
  · refine hc.foldlM (fun out key _ => hc.bind (hstat key) fun r => ?_) _
    split <;> exact Moves.pure _

/-- So do any reads. -/
theorem reads_storesNone {r r' : MemoryRoot α VB}
    (h : Relation.ReflTransGen (Composition.Read b.store) r r') : StoresNone r r' := by
  obtain ⟨hget, hbatchGet, hexists, hbatchExists, hstat, hbatchStat⟩ := b.reads_storeNone
  induction h with
  | refl => rfl
  | tail _ hread ih =>
    refine Eq.trans ?_ ih
    rcases hread with ⟨k, rfl⟩ | ⟨ks, rfl⟩ | ⟨k, rfl⟩ | ⟨ks, rfl⟩ | ⟨k, rfl⟩ | ⟨ks, rfl⟩
    · exact hget k _
    · exact hbatchGet ks _
    · exact hexists k _
    · exact hbatchExists ks _
    · exact hstat k _
    · exact hbatchStat ks _

end MemoryKvBackend

namespace Composition

/-- A memory store whose writes wait for the caller's commit. -/
def deferredLeaf {K V α VB : Type} [DecidableEq K] [DecidableEq α] (b : MemoryKvBackend K V α VB) :
    Leaf K V := ⟨MemoryRoot α VB, { b.store with writesAreDeferred := true }⟩

/-- A store in the caller's transaction, and a copy on another medium. -/
def copied (primary : Composition (List Char) String) : Composition (List Char) String :=
  mirror primary (leaf (memoryLeaf (MemoryKvBackend.plain String))) .required

/-- The same store, behind a view. -/
def behindView : Composition (List Char) String :=
  imap (leaf (deferredLeaf (MemoryKvBackend.plain String))) id id

theorem after_commit_waits_copied :
    let c := copied (leaf (deferredLeaf (MemoryKvBackend.plain String)))
    let s : c.State := pairState (.empty 0) (.empty 0)
    let s' := runActs c.store ([.set ['a'] "x" .none, .delete ['a']].map Act.op) s
    c.Waits s s' ∧ ∃ s'', c.store.discardIndexSyncs s' = (.ok (), s'') ∧ c.SameMedia s' s'' ∧
      c.Idle s'' ∧ c.store.pendingIndexSyncs s'' = 0 ∧ c.store.flushIndexSyncs s'' = (.ok (), s'') := by
  intro c s
  have hqueueless : Leaf.Queueless (memoryLeaf (MemoryKvBackend.plain String)) := ⟨fun _ => rfl, rfl, rfl⟩
  have hdeferred : Leaf.Queueless (deferredLeaf (MemoryKvBackend.plain String)) := ⟨fun _ => rfl, rfl, rfl⟩
  refine after_commit_waits c (fun | ⟨0, _⟩ => hdeferred | ⟨1, _⟩ => hqueueless)
    (fun | ⟨0, _⟩ => trivial | ⟨1, _⟩ => trivial)
    ⟨fun | ⟨0, _⟩ => trivial | ⟨1, _⟩ => trivial, fun hnone => absurd rfl (hnone 0)⟩ _ s

/-- A view does not say that the store behind it defers. The copy is written before the
    commit. -/
theorem copied_behindView_writes :
    (copied behindView).Leaves Leaf.Queueless ∧ (copied behindView).Constructed ∧
    ∃ s : (copied behindView).State, ¬ (copied behindView).Waits s
      (runActs (copied behindView).store [Act.op (.set ['a'] "x" .none)] s) := by
  have hqueueless : Leaf.Queueless (memoryLeaf (MemoryKvBackend.plain String)) := ⟨fun _ => rfl, rfl, rfl⟩
  have hdeferred : Leaf.Queueless (deferredLeaf (MemoryKvBackend.plain String)) := ⟨fun _ => rfl, rfl, rfl⟩
  refine ⟨fun | ⟨0, _⟩ => hdeferred | ⟨1, _⟩ => hqueueless, ?_, pairState (.empty 0) (.empty 0), ?_⟩
  · exact ⟨fun | ⟨0, _⟩ => rfl | ⟨1, _⟩ => rfl, rfl, fun | ⟨0, _⟩ => trivial | ⟨1, _⟩ => trivial⟩
  · intro h
    have hreads := (h.2 ⟨0, rfl, rfl⟩).1 1 rfl Bool.false_ne_true
    have hnone := MemoryKvBackend.reads_storesNone _ hreads
    exact Nat.one_ne_zero hnone

end Composition

end Kvtsjl
