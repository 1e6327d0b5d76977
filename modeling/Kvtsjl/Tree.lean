import Mathlib.Data.List.FinRange
import Kvtsjl.Composition
import Kvtsjl.WholeTarget
import Kvtsjl.Zoomed

/-
  The targets of a node of a tree, place by place.
  A place is a child, or `none` for the attached indexes. Each child's target acts on the
  child's own part of the media, so what happens at one place is not seen at another.
-/

namespace Kvtsjl

open Assoc (Dict)
open Effects Prog

/-! ## Places -/

namespace Shape

variable {S K V P : Type} [DecidableEq K]

def isWhole {V P : Type} : {T : Type} → Shape V P T → Bool
  | _, .whole => true
  | _, .piece _ _ => false

/-- The target a child is, among the targets of its node. -/
def target (d : Declared) :
    {T : Type} → [DecidableEq T] → Shape V P T → KvStore S K T → AnyTarget S K V P
  | _, _, .whole, s => Target.upcast Sum.inl (storeTarget d s some id)
  | _, _, .piece slot up, s => Target.upcast Sum.inr (storeTarget d s slot up)

theorem target_writesAreDeferred (d : Declared) {T : Type} [DecidableEq T] (sh : Shape V P T)
    (s : KvStore S K T) : (sh.target d s).writesAreDeferred = s.writesAreDeferred := by
  cases sh <;> rfl

theorem target_batchExists (d : Declared) {T : Type} [DecidableEq T] (sh : Shape V P T)
    (s : KvStore S K T) : (sh.target d s).batchExists = s.batchExists := by
  cases sh <;> rfl

theorem target_policy (d : Declared) {T : Type} [DecidableEq T] (sh : Shape V P T)
    (s : KvStore S K T) : (sh.target d s).policy = d.policy := by
  cases sh <;> rfl

theorem target?_eq (d : Declared) {T : Type} [DecidableEq T] (sh : Shape V P T)
    (s : KvStore S K T) : (sh.target? d s).map (Target.upcast Sum.inl) =
      if sh.isWhole then some (sh.target d s) else none := by
  cases sh <;> rfl

theorem target?_declared (d : Declared) {T : Type} [DecidableEq T] (sh : Shape V P T)
    {s : KvStore S K T} {t : Target S K V V} (h : t ∈ sh.target? d s) :
    sh.isWhole = true ∧ t.fill = d.fill := by
  cases sh with
  | whole =>
    rw [← Option.some.inj h]
    exact ⟨rfl, rfl⟩
  | piece slot up => cases h

theorem target?_batchExists {R : Type} (d : Declared) {T : Type} [DecidableEq T] (sh : Shape V P T)
    {l : Lens R S} {s : KvStore S K T} {t : Target R K V V} (h : t ∈ sh.target? d (s.zoom l)) :
    t.batchExists = fun ks => l.zoom (s.batchExists ks) := by
  cases sh with
  | whole =>
    rw [← Option.some.inj h]
    rfl
  | piece slot up => cases h

theorem part?_eq (d : Declared) {T : Type} [DecidableEq T] (sh : Shape V P T)
    (s : KvStore S K T) : (sh.part? d s).map (Target.upcast Sum.inr) =
      if sh.isWhole then none else some (sh.target d s) := by
  cases sh <;> rfl

end Shape

section Places

variable {S K V P : Type} [DecidableEq K] {n : Nat} {part : Fin n → Type}
  [∀ i, DecidableEq (part i)] (stores : ∀ i, KvStore S K (part i)) (declared : Fin n → Declared)
  (shape : ∀ i, Shape V P (part i)) (indexes : List (Index S K V))
  (indexPolicy : Option SyncPolicy) (assemble : Option (Parts V P → Option V))

/-- The target at a place. -/
def nodeTarget : Option (Fin n) → AnyTarget S K V P
  | some i => (shape i).target (declared i) (stores i)
  | none => Target.upcast Sum.inl (indexesTarget indexes (indexPolicy.getD .required))

/-- The places of the targets, in the order they are declared. -/
def nodePlaces : List (Option (Fin n)) :=
  ((List.finRange n).filter fun i => (shape i).isWhole).map some
    ++ (indexPolicy.map fun _ => none).toList
    ++ ((List.finRange n).filter fun i => !(shape i).isWhole).map some

/-- The role of the target at a place. -/
def placeRole : Option (Fin n) → Role
  | some i => (declared i).role
  | none => .dependent

/-- The places of the targets with these roles, phase by phase. -/
def placesOf (roles : List Role) : List (Option (Fin n)) :=
  roles.flatMap fun r => (nodePlaces shape indexPolicy).filter fun p => placeRole declared p = r

theorem nodeTarget_role (p : Option (Fin n)) :
    (nodeTarget stores declared shape indexes indexPolicy p).role = placeRole declared p := by
  cases p with
  | none => rfl
  | some i =>
    show ((shape i).target (declared i) (stores i)).role = _
    cases shape i <;> rfl

/-- The policy of the target at a place. -/
def placePolicy (declared : Fin n → Declared) (indexPolicy : Option SyncPolicy) :
    Option (Fin n) → SyncPolicy
  | some i => (declared i).policy
  | none => indexPolicy.getD .required

theorem nodeTarget_policy (p : Option (Fin n)) :
    (nodeTarget stores declared shape indexes indexPolicy p).policy =
      placePolicy declared indexPolicy p := by
  cases p with
  | none => rfl
  | some i => exact Shape.target_policy _ _ _

theorem all_eq : (nodeTopology stores declared shape indexes indexPolicy assemble).all =
    (nodePlaces shape indexPolicy).map (nodeTarget stores declared shape indexes indexPolicy) := by
  have hwhole : ((List.finRange n).filterMap fun i => (shape i).target? (declared i) (stores i)).map
      (Target.upcast Sum.inl) = (((List.finRange n).filter fun i => (shape i).isWhole).map some).map
        (nodeTarget stores declared shape indexes indexPolicy) := by
    rw [List.map_filterMap, List.map_map, ← List.filterMap_eq_map, List.filterMap_filter]
    refine List.filterMap_congr fun i _ => ?_
    exact Shape.target?_eq _ _ _
  have hpart : ((List.finRange n).filterMap fun i => (shape i).part? (declared i) (stores i)).map
      (Target.upcast Sum.inr) = (((List.finRange n).filter fun i => !(shape i).isWhole).map some).map
        (nodeTarget stores declared shape indexes indexPolicy) := by
    rw [List.map_filterMap, List.map_map, ← List.filterMap_eq_map, List.filterMap_filter]
    refine List.filterMap_congr fun i _ => ?_
    rw [Shape.part?_eq]
    cases (shape i).isWhole <;> rfl
  unfold Topology.all nodePlaces
  rw [List.map_append, List.map_append]
  show (_ ++ (indexPolicy.map fun p => indexesTarget indexes p).toList).map _ ++ _ = _
  rw [List.map_append, hwhole]
  refine congrArg₂ (· ++ ·) ?_ hpart
  cases indexPolicy <;> rfl

omit [∀ i, DecidableEq (part i)] in
theorem mem_nodePlaces (i : Fin n) : some i ∈ nodePlaces shape indexPolicy := by
  unfold nodePlaces
  cases h : (shape i).isWhole with
  | true =>
    refine List.mem_append_left _ (List.mem_append_left _ ?_)
    exact List.mem_map.mpr ⟨i, List.mem_filter.mpr ⟨List.mem_finRange i, h⟩, rfl⟩
  | false =>
    refine List.mem_append_right _ ?_
    exact List.mem_map.mpr ⟨i, List.mem_filter.mpr ⟨List.mem_finRange i, by rw [h]; rfl⟩, rfl⟩

omit [∀ i, DecidableEq (part i)] in
theorem none_mem_nodePlaces (h : indexPolicy.isSome = true) :
    none ∈ nodePlaces shape indexPolicy := by
  obtain ⟨policy, rfl⟩ := Option.isSome_iff_exists.mp h
  exact List.mem_append_left _ (List.mem_append_right _ (List.mem_singleton.mpr rfl))

omit [∀ i, DecidableEq (part i)] in
theorem indexPolicy_of_place (h : none ∈ nodePlaces shape indexPolicy) :
    indexPolicy.isSome = true := by
  unfold nodePlaces at h
  rcases List.mem_append.mp h with h | h
  · rcases List.mem_append.mp h with h | h
    · obtain ⟨i, -, hi⟩ := List.mem_map.mp h
      cases hi
    · obtain ⟨p, hp, -⟩ := Option.map_eq_some_iff.mp (Option.mem_toList.mp h)
      rw [hp]
      rfl
  · obtain ⟨i, -, hi⟩ := List.mem_map.mp h
    cases hi

omit [∀ i, DecidableEq (part i)] in
theorem nodup_nodePlaces : (nodePlaces shape indexPolicy).Nodup := by
  have hn : (List.finRange n).Nodup := List.nodup_finRange n
  have hinj : Function.Injective (some : Fin n → Option (Fin n)) := Option.some_injective _
  unfold nodePlaces
  rw [List.nodup_append, List.nodup_append]
  refine ⟨⟨(hn.filter _).map hinj, ?_, ?_⟩, (hn.filter _).map hinj, ?_⟩
  · cases indexPolicy <;> simp
  · intro p hp q hq
    obtain ⟨i, -, rfl⟩ := List.mem_map.mp hp
    cases indexPolicy with
    | none => cases hq
    | some policy =>
      rw [List.mem_singleton.mp hq]
      exact Option.some_ne_none i
  · intro p hp q hq hpq
    obtain ⟨j, hj, rfl⟩ := List.mem_map.mp hq
    rcases List.mem_append.mp hp with hp | hp
    · obtain ⟨i, hi, rfl⟩ := List.mem_map.mp hp
      rw [Option.some.inj hpq] at hi
      have hwhole := (List.mem_filter.mp hi).2
      have hpiece := (List.mem_filter.mp hj).2
      rw [hwhole] at hpiece
      cases hpiece
    · cases indexPolicy with
      | none => cases hp
      | some policy =>
        rw [List.mem_singleton.mp hp] at hpq
        cases hpq

theorem byRole_eq (roles : List Role) :
    (nodeTopology stores declared shape indexes indexPolicy assemble).byRole roles =
      (placesOf declared shape indexPolicy roles).map
        (nodeTarget stores declared shape indexes indexPolicy) := by
  unfold Topology.byRole placesOf
  rw [all_eq, List.map_flatMap]
  congr 1
  funext r
  rw [List.filter_map]
  congr 1
  refine List.filter_congr fun p _ => ?_
  show decide ((nodeTarget stores declared shape indexes indexPolicy p).role = r) = _
  rw [nodeTarget_role]

omit [∀ i, DecidableEq (part i)] in
theorem mem_placesOf {roles : List Role} {p : Option (Fin n)} :
    p ∈ placesOf declared shape indexPolicy roles ↔
      p ∈ nodePlaces shape indexPolicy ∧ placeRole declared p ∈ roles := by
  unfold placesOf
  rw [List.mem_flatMap]
  constructor
  · rintro ⟨r, hr, hp⟩
    obtain ⟨hp, hrole⟩ := List.mem_filter.mp hp
    rw [of_decide_eq_true hrole]
    exact ⟨hp, hr⟩
  · rintro ⟨hp, hr⟩
    exact ⟨_, hr, List.mem_filter.mpr ⟨hp, by simp⟩⟩

omit [∀ i, DecidableEq (part i)] in
theorem placesOf_append (roles roles' : List Role) :
    placesOf declared shape indexPolicy (roles ++ roles') =
      placesOf declared shape indexPolicy roles ++ placesOf declared shape indexPolicy roles' :=
  List.flatMap_append

omit [∀ i, DecidableEq (part i)] in
theorem nodup_placesOf {roles : List Role} (h : roles.Nodup) :
    (placesOf declared shape indexPolicy roles).Nodup := by
  unfold placesOf
  rw [List.nodup_flatMap]
  refine ⟨fun r _ => (nodup_nodePlaces shape indexPolicy).filter _, h.imp ?_⟩
  intro r r' hne p hp hp'
  have hr := of_decide_eq_true (List.mem_filter.mp hp).2
  have hr' := of_decide_eq_true (List.mem_filter.mp hp').2
  exact hne (hr.symm.trans hr')

end Places

/-! ## The media at a place -/

namespace Media

variable {n m : Nat} {C : Fin n → Type} {I : Fin m → Type}

theorem child_apart {i j : Fin n} (h : j ≠ i) :
    Lens.Apart (child i : Lens (Media C I) (C i)) (child j) :=
  fun s t => Function.update_of_ne h t s.1

theorem indexes_apart_child (i : Fin n) :
    Lens.Apart (Lens.second : Lens (Media C I) (∀ j, I j)) (child i) := fun _ _ => rfl

theorem child_apart_indexes (i : Fin n) :
    Lens.Apart (child i : Lens (Media C I) (C i)) Lens.second := fun _ _ => rfl

theorem child_apart_index (i : Fin n) (j : Fin m) :
    Lens.Apart (child i : Lens (Media C I) (C i)) (index j) := fun _ _ => rfl

theorem index_apart {i j : Fin m} (h : j ≠ i) :
    Lens.Apart (index i : Lens (Media C I) (I i)) (index j) :=
  fun s t => Function.update_of_ne h t s.2

end Media

section AtPlace

variable {K V P : Type} [DecidableEq K] {n m : Nat} {C : Fin n → Type} {I : Fin m → Type}
  {part : Fin n → Type} [∀ i, DecidableEq (part i)] (stores : ∀ i, KvStore (C i) K (part i))
  (declared : Fin n → Declared) (shape : ∀ i, Shape V P (part i))
  (index : ∀ j, Index (I j) K V) (indexPolicy : Option SyncPolicy)
  (assemble : Option (Parts V P → Option V))

/-- The topology of a node over its children's stores and its indexes, each on its own
    part of the media. -/
abbrev mediaTopology : Topology (Media C I) K V P :=
  nodeTopology (fun i => (stores i).zoom (Media.child i)) declared shape
    (List.ofFn fun j => (index j).zoom (Media.index j)) indexPolicy assemble

/-- The target at a place. -/
abbrev mediaTarget (p : Option (Fin n)) : AnyTarget (Media C I) K V P :=
  nodeTarget (fun i => (stores i).zoom (Media.child i)) declared shape
    (List.ofFn fun j => (index j).zoom (Media.index j)) indexPolicy p

/-- The indexes, over their own part of the media. -/
def nodeIndexes : List (Index (∀ j, I j) K V) := List.ofFn fun j => (index j).zoom (Lens.coord j)

theorem mediaTarget_child (i : Fin n) : mediaTarget stores declared shape index indexPolicy (some i) =
    ((shape i).target (declared i) (stores i)).zoom (Media.child i) := by
  show (shape i).target (declared i) ((stores i).zoom (Media.child i)) = _
  cases shape i with
  | whole => exact (congrArg _ (storeTarget_zoom _ _ _ _ _)).trans (upcast_zoom _ _ _)
  | piece slot up => exact (congrArg _ (storeTarget_zoom _ _ _ _ _)).trans (upcast_zoom _ _ _)

theorem mediaTarget_indexes : mediaTarget stores declared shape index indexPolicy none =
    (Target.upcast Sum.inl (indexesTarget (nodeIndexes index) (indexPolicy.getD .required))).zoom
      Lens.second := by
  have hindexes : (List.ofFn fun j => (index j).zoom (Media.index j : Lens (Media C I) (I j))) =
      (nodeIndexes index).map (Index.zoom Lens.second) := by
    unfold nodeIndexes
    rw [List.map_ofFn]
    rfl
  show Target.upcast Sum.inl (indexesTarget (List.ofFn _) _) = _
  rw [hindexes, indexesTarget_zoom, upcast_zoom]

/-- What happens at one place is not seen by the child at another. -/
theorem on_keeps_child (op : SyncOp K V) {p : Option (Fin n)} {i : Fin n} (h : p ≠ some i) :
    Moves (Media.child i).Keeps
      (op.on (mediaTarget stores declared shape index indexPolicy p)) := by
  cases p with
  | none =>
    rw [mediaTarget_indexes, on_zoom_target]
    exact (Media.indexes_apart_child i).zoom_keeps _
  | some j =>
    rw [mediaTarget_child, on_zoom_target]
    exact (Media.child_apart fun hij => h (by rw [hij])).zoom_keeps _

/-- What happens at a child is not seen by an index. -/
theorem on_keeps_index (op : SyncOp K V) (i : Fin n) (j : Fin m) :
    Moves (Media.index j).Keeps
      (op.on (mediaTarget stores declared shape index indexPolicy (some i))) := by
  rw [mediaTarget_child, on_zoom_target]
  exact (Media.child_apart_index i j).zoom_keeps _

end AtPlace

/-! ## What a child is asked for -/

/-- A point write, as it reaches a store: a value, or the removal of its part. -/
inductive Ask (V : Type) where
  | put (value : V) (options : WriteOptions)
  | unset

namespace Ask

variable {σ K V T P : Type}

def run (s : KvStore σ K V) (key : K) : Ask V → M σ Unit
  | put value options => s.set key value options
  | unset => Functor.discard (s.unset key)

/-- What a target that holds `slot` of the record asks of its store. -/
def slotted (slot : V → Option T) (clock : Bool) : Ask V → Ask T
  | put value options =>
    match slot value with
    | none => unset
    | some item => put item
        (if options.createdAt = none ∨ clock then options else { options with createdAt := none })
  | unset => unset

def map (f : V → T) : Ask V → Ask T
  | put value options => put (f value) options
  | unset => unset

/-- The ask, as an operation on a target. -/
def syncOp (key : K) : Ask V → SyncOp K V
  | put value options => .write key value options
  | unset => .unset key

theorem run_zoom {τ : Type} (l : Lens τ σ) (s : KvStore σ K V) (key : K) (a : Ask V) :
    a.run (s.zoom l) key = l.zoom (a.run s key) := by
  cases a with
  | put value options => rfl
  | unset => exact Lens.zoom_discard l _

/-- A target asks its store for its part of the record. -/
theorem on_target [DecidableEq K] [DecidableEq T] (d : Declared) (sh : Shape V P T)
    (s : KvStore σ K T) (key : K) (a : Ask V) :
    (a.syncOp key).on (sh.target d s : AnyTarget σ K V P) =
      (a.slotted sh.slot s.supportsWriteClock).run s key := by
  cases a with
  | unset => cases sh <;> rfl
  | put value options =>
    cases sh with
    | whole => rfl
    | piece slot up =>
      show (match slot value with
        | none => Functor.discard (s.unset key)
        | some item => s.set key item _ : M σ Unit) =
          (match slot value with
            | none => unset
            | some item => put item _ : Ask T).run s key
      cases slot value <;> rfl

end Ask

/-! ## Conditions on a tree -/

namespace Composition

/-- Every leaf of the tree meets `p`. -/
def Leaves (p : ∀ {K V : Type}, Leaf K V → Prop) : {K V : Type} → Composition K V → Prop
  | _, _, .leaf l => p l
  | _, _, .imap c _ _ => c.Leaves p
  | _, _, .imapKeys _ c _ _ => c.Leaves p
  | _, _, .node _ _ _ _ _ _ child _ _ _ _ _ _ => ∀ i, (child i).Leaves p

/-- The tree is a composition, or a view of one. -/
def Composed : {K V : Type} → Composition K V → Prop
  | _, _, .leaf _ => False
  | _, _, .imap c _ _ => c.Composed
  | _, _, .imapKeys _ c _ _ => c.Composed
  | _, _, .node _ _ _ _ _ _ _ _ _ _ _ _ _ => True

/-- The topology of a node of the tree. -/
abbrev topologyOf {K V P : Type} [DecidableEq K] {n m : Nat} {part : Fin n → Type}
    [∀ i, DecidableEq (part i)] (child : ∀ i, Composition K (part i)) (declared : Fin n → Declared)
    (shape : ∀ i, Shape V P (part i)) (index : Fin m → IndexLeaf K V)
    (indexPolicy : Option SyncPolicy) (assemble : Option (Parts V P → Option V)) :
    Topology (Media (fun i => (child i).State) fun j => (index j).State) K V P :=
  mediaTopology (fun i => (child i).store) declared shape (fun j => (index j).index) indexPolicy
    assemble

/-- Every node passes the checks its constructor makes. -/
def Constructed : {K V : Type} → [DecidableEq K] → Composition K V → Prop
  | _, _, _, .leaf _ => True
  | _, _, _, .imap c _ _ => c.Constructed
  | _, _, _, .imapKeys _ c _ _ => c.Constructed
  | _, _, _, .node _ _ _ _ _ _ child declared shape _ index indexPolicy assemble =>
    (∀ i, (declared i).check = .ok ()) ∧
      (topologyOf child declared shape index indexPolicy assemble).postInit = .ok () ∧
      ∀ i, (child i).Constructed

/-- The places of a list of roles, and the targets there. -/
theorem mem_byRole {S K V P : Type} [DecidableEq K] {n : Nat} {part : Fin n → Type}
    [∀ i, DecidableEq (part i)] {stores : ∀ i, KvStore S K (part i)} {declared : Fin n → Declared}
    {shape : ∀ i, Shape V P (part i)} {indexes : List (Index S K V)}
    {indexPolicy : Option SyncPolicy} {assemble : Option (Parts V P → Option V)}
    {roles : List Role} {t : AnyTarget S K V P}
    (h : t ∈ (nodeTopology stores declared shape indexes indexPolicy assemble).byRole roles) :
    ∃ p, placeRole declared p ∈ roles ∧
      t = nodeTarget stores declared shape indexes indexPolicy p := by
  rw [byRole_eq] at h
  obtain ⟨p, hp, rfl⟩ := List.mem_map.mp h
  exact ⟨p, ((mem_placesOf _ _ _).mp hp).2, rfl⟩

/-- Over children that write at once, a node does. -/
theorem deferred_topologyOf {K V P : Type} [DecidableEq K] {n m : Nat} {part : Fin n → Type}
    [∀ i, DecidableEq (part i)] {child : ∀ i, Composition K (part i)} {declared : Fin n → Declared}
    {shape : ∀ i, Shape V P (part i)} {index : Fin m → IndexLeaf K V}
    {indexPolicy : Option SyncPolicy} {assemble : Option (Parts V P → Option V)}
    (h : ∀ i, (child i).store.writesAreDeferred = false) :
    (topologyOf child declared shape index indexPolicy assemble).deferred = false := by
  refine List.any_eq_false.mpr fun t ht => ?_
  obtain ⟨p, -, rfl⟩ := mem_byRole ht
  cases p with
  | none => exact Bool.false_ne_true
  | some i =>
    show ¬ ((shape i).target (declared i) ((child i).store.zoom _)).writesAreDeferred = true
    rw [Shape.target_writesAreDeferred]
    exact ne_true_of_eq_false (h i)

theorem Leaves.mono {p q : ∀ {K V : Type}, Leaf K V → Prop} {K V : Type} {c : Composition K V}
    (h : c.Leaves p) (hpq : ∀ {K V : Type} (l : Leaf K V), p l → q l) : c.Leaves q := by
  induction c with
  | leaf l => exact hpq l h
  | imap c f g ih => exact ih h
  | imapKeys dec c f g ih => exact ih h
  | node name zip P n part dec child declared shape m index policy assemble ih =>
    exact fun i => ih i (h i)

/-- Over leaves that write at once, every store of the tree writes at once. -/
theorem undeferred {K V : Type} (c : Composition K V)
    (h : c.Leaves fun l => l.store.writesAreDeferred = false) :
    ∀ [DecidableEq K], c.store.writesAreDeferred = false := by
  induction c with
  | leaf l => exact h
  | imap c f g ih =>
    intro _
    rfl
  | imapKeys dec c f g ih =>
    intro _
    rfl
  | node name zip P n part dec child declared shape m index policy assemble ih =>
    intro _
    have hdeferred : (topologyOf child declared shape index policy assemble).deferred = false :=
      deferred_topologyOf fun i => ih i (h i)
    cases zip <;> exact hdeferred

end Composition

end Kvtsjl
