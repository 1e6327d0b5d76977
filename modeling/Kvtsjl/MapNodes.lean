import Kvtsjl.CommitSide
import Kvtsjl.ExpiringMap
import Kvtsjl.Waiting

/-
  Compositions of maps whose entries expire.
  A node over such maps is one, whatever its record is made of: what is written to it reaches each child that is read
  for it, and what a read answers is put together from what they answer. `node_isMap` says so.
-/

namespace Kvtsjl

open Assoc (Dict)
open Effects Prog

/-! ## What a target leaves -/

section Targets

variable {σ K V T P : Type} [DecidableEq K] [DecidableEq T]

/-- What an operation on a target that returns leaves under a key. -/
def SyncOp.leaves : SyncOp K V → K → Option (Option (V × WriteOptions))
  | .write key value options, k => if k = key then some (some (value, options)) else none
  | .batchWrite items options, k => (items.get? k).map fun value => some (value, options)
  | .delete key, k => if k = key then some none else none
  | .unset key, k => if k = key then some none else none
  | .batchDelete keys, k => if k ∈ keys then some none else none
  | .batchUnset keys, k => if k ∈ keys then some none else none

/-- What a child shows of the record, where it holds `slot` of it and keeps a write clock or not. -/
def Showing.slotted (shown : Showing T) (slot : V → Option T) (clocked : Bool) : V → WriteOptions → Instant →
    Instant → Option T := fun value options now u =>
  (slot value).bind fun item =>
    shown item (if options.createdAt = none ∨ clocked then options else { options with createdAt := none }) now u

variable {clock : Clock Instant σ} {shown : Showing T} {s : KvStore σ K T} {slot : V → Option T} {t : Instant}
  {k : K} {st st' : σ}

omit [DecidableEq T] in
theorem entries_ne_nil {α : Type} {d : Dict K α} {v : α} (h : d.get? k = some v) : d.entries ≠ [] :=
  List.ne_nil_of_mem (Dict.mem_entries.mpr h)

omit [DecidableEq T] in
/-- A batch on a target sets what the target holds of its records, and then clears what it holds nothing of. -/
theorem batchWrite_foretells (h : s.IsMap clock shown) {items : Dict K V} {value : V}
    (hvalue : items.get? k = some value) (o : WriteOptions) (ht : clock.Shows t st)
    (hrun : (do
      when ((toSet slot items).entries ≠ []) (s.batchSet (toSet slot items) o)
      when (toClear slot items ≠ []) (Functor.discard (s.batchUnset (toClear slot items))) : M σ Unit) st =
        (.ok (), st')) :
    clock.Foretells (s.answer k) t (fun u => .ok ((slot value).bind fun item => shown item o t u)) st' := by
  obtain ⟨u, st1, hset, hclear⟩ := bind_eq_ok hrun
  have hset? : (toSet slot items).get? k = slot value := by
    rw [toSet, Dict.get?_collect, hvalue, Option.bind_some]
  have hclear? : k ∈ toClear slot items ↔ slot value = none := by
    rw [toClear, Dict.mem_keys, Dict.get?_filter, hvalue]
    simp
  have ht1 : clock.Shows t st1 := by
    have hstay := Moves.when (p := (toSet slot items).entries ≠ []) (h.stays (.batchSet (toSet slot items) o)) st t ht
    rwa [show (when _ (RecordOp.run s _) : M σ Unit) st = _ from hset] at hstay
  cases hs : slot value with
  | none =>
    have hk := hclear?.mpr hs
    rw [when, if_pos (List.ne_nil_of_mem hk)] at hclear
    exact h.leaves (.batchUnset (toClear slot items)) k none (if_pos hk) t st1 st' ht1 hclear
  | some item =>
    have hk : k ∉ toClear slot items := fun hmem => by
      rw [hclear?, hs] at hmem
      cases hmem
    rw [hs] at hset?
    rw [when, if_pos (entries_ne_nil hset?)] at hset
    have hleaves : RecordOp.leaves (.batchSet (toSet slot items) o) k = some (some (item, o)) := by
      show ((toSet slot items).get? k).map _ = _
      rw [hset?]
      rfl
    have hspare := Moves.when (p := toClear slot items ≠ []) (h.spares k (.batchUnset (toClear slot items)) hk) st1
    rw [show (when _ (RecordOp.run s _) : M σ Unit) st1 = _ from hclear] at hspare
    exact hspare.foretells ht1 (h.leaves _ k _ hleaves t st st1 ht hset)

/-- Where an operation on a target returns, its store shows its part of what was left. -/
theorem storeTarget_foretells (h : s.IsMap clock shown) (d : Declared) (up : T → P) {op : SyncOp K V}
    {left : Option (V × WriteOptions)} (hleft : op.leaves k = some left) (ht : clock.Shows t st)
    (hrun : op.on (storeTarget d s slot up : Target σ K V P) st = (.ok (), st')) :
    clock.Foretells (s.answer k) t
      (fun u => .ok (left.bind fun w => shown.slotted slot s.supportsWriteClock w.1 w.2 t u)) st' := by
  cases op with
  | write key value options =>
    obtain ⟨rfl, rfl⟩ := of_ite_some hleft
    unfold SyncOp.on storeTarget keyMapTarget at hrun
    simp only at hrun
    unfold Showing.slotted
    cases hs : slot value with
    | none =>
      rw [hs] at hrun
      simp only [Option.bind_some, hs, Option.bind_none]
      exact h.leaves (.unset k) k none (if_pos rfl) t st st' ht hrun
    | some item =>
      rw [hs] at hrun
      simp only [Option.bind_some, hs]
      exact h.leaves (.set k item _) k _ (if_pos rfl) t st st' ht hrun
  | batchWrite items options =>
    obtain ⟨value, hvalue, rfl⟩ := Option.map_eq_some_iff.mp hleft
    exact batchWrite_foretells h hvalue _ ht hrun
  | delete key =>
    obtain ⟨rfl, rfl⟩ := of_ite_some hleft
    exact h.leaves (.delete k) k none (if_pos rfl) t st st' ht hrun
  | unset key =>
    obtain ⟨rfl, rfl⟩ := of_ite_some hleft
    exact h.leaves (.unset k) k none (if_pos rfl) t st st' ht hrun
  | batchDelete keys =>
    obtain ⟨hk, rfl⟩ := of_ite_some hleft
    exact h.leaves (.batchDelete keys) k none (if_pos hk) t st st' ht hrun
  | batchUnset keys =>
    obtain ⟨hk, rfl⟩ := of_ite_some hleft
    exact h.leaves (.batchUnset keys) k none (if_pos hk) t st st' ht hrun

theorem Shape.target_foretells (h : s.IsMap clock shown) (d : Declared) (sh : Shape V P T) {op : SyncOp K V}
    {left : Option (V × WriteOptions)} (hleft : op.leaves k = some left) (ht : clock.Shows t st)
    (hrun : op.on (sh.target d s : AnyTarget σ K V P) st = (.ok (), st')) :
    clock.Foretells (s.answer k) t
      (fun u => .ok (left.bind fun w => shown.slotted sh.slot s.supportsWriteClock w.1 w.2 t u)) st' := by
  cases sh with
  | whole => exact storeTarget_foretells (P := V) h d id hleft ht (by cases op <;> exact hrun)
  | piece slot up => exact storeTarget_foretells h d up hleft ht (by cases op <;> exact hrun)

end Targets

/-! ## The two phases of an operation -/

section Phases

variable {S K V P : Type} [DecidableEq K] {T : Topology S K V P}

/-- A removal whose answers are dropped, as two loops. -/
theorem removal_phases {β γ : Type} (hdef : T.deferred = false)
    {now : AnyTarget S K V P → M S β} (op : SyncOp K V) (hnow : ∀ t, op.on t = Functor.discard (now t)) (what : String)
    (answer : List β → γ) :
    (Functor.discard (do
      let removed ← T.removedNow.mapM fun t => Node.onMedia (now t)
      forM T.removedAfterCommit fun t => T.syncOne t what op none
      return answer removed) : M (Node S K V P) Unit) =
      forM T.removedNow (fun t => Node.onMedia (op.on t)) >>= fun _ =>
        forM T.removedAfterCommit (afterwards what op) := by
  have hfirst : forM T.removedNow (fun t => Node.onMedia (op.on t)) =
      (Functor.discard (T.removedNow.mapM fun t => Node.onMedia (now t)) : M (Node S K V P) PUnit) := by
    rw [← forM_discard]
    refine forM_congr fun t _ => ?_
    rw [hnow]
    exact (Lens.zoom_discard _ _).symm
  have hlast : (forM T.removedAfterCommit fun t => T.syncOne t what op none) =
      forM T.removedAfterCommit (afterwards what op) := forM_congr fun t _ => syncOne_now hdef t _ _
  rw [hfirst, ← hlast, discard_then, discard_bind]
  exact bind_congr fun removed => discard_return _ _

theorem admitWrite_ok {name : String} {o : WriteOptions} {n n' : Node S K V P} {u : Unit}
    (h : T.admitWrite name o n = (.ok u, n')) : n' = n := by
  unfold Topology.admitWrite requireWriteClockSupported at h
  split at h
  · cases h
  · exact (Prod.mk.inj h).2.symm

/-- A removal of keys that returns has gone through the two loops of its own operation. -/
theorem batchRemove_phases (hdef : T.deferred = false) (r : Topology.Removal) {keys : List K} {k : K} (hk : k ∈ keys)
    {s s' : Node S K V P}
    (hrun : (Functor.discard (T.batchRemove r keys none) : M (Node S K V P) Unit) s = (.ok (), s')) :
    ∃ s1, s1 = ((Node.onMedia (T.heldBefore (Dict.unique keys)) : M (Node S K V P) _) s).2 ∧
      (forM T.removedNow (fun t => Node.onMedia ((r.batchOp (Dict.unique keys)).on t)) >>= fun _ =>
        forM T.removedAfterCommit (afterwards r.batchWhat (r.batchOp (Dict.unique keys)))) s1 = (.ok (), s') := by
  have hne : keys.isEmpty = false := List.isEmpty_eq_false_iff.mpr (List.ne_nil_of_mem hk)
  unfold Topology.batchRemove at hrun
  rw [hne, if_neg Bool.false_ne_true, discard_bind] at hrun
  obtain ⟨held, s1, hheld, hloops⟩ := bind_eq_ok hrun
  refine ⟨s1, by rw [hheld], ?_⟩
  rw [← hloops]
  refine (congrFun (removal_phases hdef (r.batchOp (Dict.unique keys)) ?_ _ _) s1).symm
  cases r <;> exact fun t => rfl

/-- An operation that returns has gone through the two phases of one that leaves the same. -/
theorem op_phases (hdef : T.deferred = false) (typeName : String) {op : RecordOp K V} {k : K}
    {left : Option (V × WriteOptions)} (hleft : op.leaves k = some left) {s s' : Node S K V P}
    (hrun : op.run (T.store typeName) s = (.ok (), s')) :
    ∃ (on : SyncOp K V) (what : String) (keys : List K) (s1 : Node S K V P), on.leaves k = some left ∧
      (s1 = s ∨ s1 = ((Node.onMedia (T.heldBefore keys) : M (Node S K V P) _) s).2) ∧
      ((forM T.committing (committed on) >>= fun _ => forM T.dependents (afterwards what on)) s1 = (.ok (), s') ∨
        (forM T.removedNow (fun t => Node.onMedia (on.on t)) >>= fun _ =>
          forM T.removedAfterCommit (afterwards what on)) s1 = (.ok (), s')) := by
  cases op with
  | set key value options =>
    obtain ⟨u, s1, hclock, hwrite⟩ := bind_eq_ok (f := fun _ => T.write key value options) hrun
    obtain rfl := admitWrite_ok hclock
    rw [write_phases hdef] at hwrite
    exact ⟨.write key value options, _, [], s1, hleft, .inl rfl, .inl hwrite⟩
  | batchSet items options =>
    obtain ⟨u, s1, hclock, hwrite⟩ := bind_eq_ok (f := fun _ => T.batchWrite items options) hrun
    obtain rfl := admitWrite_ok hclock
    obtain ⟨value, hvalue, -⟩ := Option.map_eq_some_iff.mp hleft
    rw [Topology.batchWrite, when, if_pos (entries_ne_nil hvalue)] at hwrite
    refine ⟨.batchWrite items options, "batch set", [], s1, hleft, .inl rfl, .inl ?_⟩
    rw [← hwrite]
    refine congrFun (bind_congr fun _ => forM_congr fun t _ => ?_) s1
    exact (syncOne_now hdef t _ _).symm
  | writeIfUnchanged writes ttl => cases hleft
  | delete key =>
    refine ⟨.delete key, "delete", [], s, hleft, .inl rfl, .inr ?_⟩
    rw [← hrun]
    exact (congrFun (removal_phases hdef (.delete key) (fun t => rfl) _ _) s).symm
  | batchDelete keys =>
    obtain ⟨hk, rfl⟩ := of_ite_some hleft
    obtain ⟨s1, hs1, hloops⟩ := batchRemove_phases hdef .delete hk hrun
    exact ⟨.batchDelete (Dict.unique keys), _, _, s1, if_pos (Dict.mem_unique.mpr hk), .inr hs1, .inr hloops⟩
  | unset key =>
    refine ⟨.unset key, "unset", [], s, hleft, .inl rfl, .inr ?_⟩
    rw [← hrun]
    exact (congrFun (removal_phases hdef (.unset key) (fun t => rfl) _ _) s).symm
  | batchUnset keys =>
    obtain ⟨hk, rfl⟩ := of_ite_some hleft
    obtain ⟨s1, hs1, hloops⟩ := batchRemove_phases hdef .unset hk hrun
    exact ⟨.batchUnset (Dict.unique keys), _, _, s1, if_pos (Dict.mem_unique.mpr hk), .inr hs1, .inr hloops⟩

end Phases

/-! ## Media, part by part -/

section Parts

variable {K V P : Type} [DecidableEq K] {n m : Nat} {C : Fin n → Type} {I : Fin m → Type} {part : Fin n → Type}
  [∀ i, DecidableEq (part i)] {stores : ∀ i, KvStore (C i) K (part i)} {declared : Fin n → Declared}
  {shape : ∀ i, Shape V P (part i)} {index : ∀ j, Index (I j) K V} {indexPolicy : Option SyncPolicy}
  {assemble : Option (Parts V P → Option V)} {seen : Fin n → Prop} {R : ∀ i, C i → C i → Prop}

/-- Each of the children seen moves along its own relation. -/
def OnParts (seen : Fin n → Prop) (R : ∀ i, C i → C i → Prop) (s s' : Media C I) : Prop :=
  ∀ i, seen i → R i (s.1 i) (s'.1 i)

variable [∀ i, Std.Refl (R i)]

instance onParts_refl : Std.Refl (OnParts seen R : Media C I → Media C I → Prop) :=
  ⟨fun s i _ => Std.Refl.refl (s.1 i)⟩

instance onParts_trans [∀ i, IsTrans (C i) (R i)] : IsTrans (Media C I) (OnParts seen R) :=
  ⟨fun _ _ _ h h' i hi => IsTrans.trans _ _ _ (h i hi) (h' i hi)⟩

theorem onParts_child {α : Type} {i : Fin n} {q : M (C i) α} (h : seen i → Moves (R i) q) :
    Moves (OnParts seen R) ((Media.child i : Lens (Media C I) (C i)).zoom q) := by
  intro s j hj
  show R j (s.1 j) (Function.update s.1 i (q (s.1 i)).2 j)
  by_cases hji : j = i
  · subst hji
    rw [Function.update_self]
    exact h hj (s.1 j)
  · rw [Function.update_of_ne hji]
    exact Std.Refl.refl _

theorem onParts_indexes {α : Type} {q : M (∀ j, I j) α} :
    Moves (OnParts seen R) ((Lens.second : Lens (Media C I) (∀ j, I j)).zoom q) :=
  fun s j _ => Std.Refl.refl (s.1 j)

omit [∀ i, DecidableEq (part i)] [DecidableEq K] in
theorem RecordOp.run_zoom {σ τ : Type} (l : Lens σ τ) (s : KvStore τ K V) (op : RecordOp K V) :
    op.run (s.zoom l) = l.zoom (op.run s) := by
  cases op with
  | set key value options => rfl
  | batchSet items options => rfl
  | _ => exact Lens.zoom_discard l _

variable [∀ i, IsTrans (C i) (R i)] {p : K → Prop}

omit [DecidableEq K] [∀ i, DecidableEq (part i)] [∀ i, IsTrans (C i) (R i)] in
theorem zoom_about {i : Fin n} (h : seen i → (stores i).About p (R i)) :
    ((stores i).zoom (Media.child i : Lens (Media C I) (C i))).About p (OnParts seen R) where
  op op hp := by
    rw [RecordOp.run_zoom]
    exact onParts_child fun hi => (h hi).op op hp
  probe ks := onParts_child fun hi => (h hi).probe ks

/-- What is asked of a node's targets about some keys, the children seen are asked about them. -/
theorem media_about (h : ∀ i, seen i → (stores i).About p (R i)) :
    ∀ t ∈ (mediaTopology stores declared shape index indexPolicy assemble).all, t.About p (OnParts seen R) := by
  intro t ht
  rw [all_eq] at ht
  obtain ⟨place, -, rfl⟩ := List.mem_map.mp ht
  cases place with
  | some i => exact Shape.target_about _ _ (zoom_about (h i))
  | none =>
    show Target.About p (OnParts seen R) (mediaTarget stores declared shape index indexPolicy none)
    rw [mediaTarget_indexes]
    refine ⟨fun op _ => ?_, fun ws o _ => onParts_indexes, fun ks => onParts_indexes⟩
    rw [on_zoom_target]
    exact onParts_indexes

end Parts

/-! ## What reaches a child -/

section Reaching

variable {K V P : Type} [DecidableEq K] {n m : Nat} {C : Fin n → Type} {I : Fin m → Type} {part : Fin n → Type}
  [∀ i, DecidableEq (part i)] {stores : ∀ i, KvStore (C i) K (part i)} {declared : Fin n → Declared}
  {shape : ∀ i, Shape V P (part i)} {index : ∀ j, Index (I j) K V} {indexPolicy : Option SyncPolicy}
  {assemble : Option (Parts V P → Option V)}

/-- A child that a write or a removal of the record either reaches, or reports that it has not. -/
def Declared.Tended (d : Declared) : Prop := d.role = .authority ∨ d.role ≠ .fallback ∧ d.policy = .required

/-- The places removed from, before the commit and after it. -/
theorem removed_places (hacc : (mediaTopology stores declared shape index indexPolicy assemble).Accepted) :
    (mediaTopology stores declared shape index indexPolicy assemble).removedNow =
        (removedPlaces declared shape indexPolicy).1.map (mediaTarget stores declared shape index indexPolicy) ∧
      (mediaTopology stores declared shape index indexPolicy assemble).removedAfterCommit =
        (removedPlaces declared shape indexPolicy).2.map (mediaTarget stores declared shape index indexPolicy) := by
  unfold Topology.removedNow Topology.removedAfterCommit removedPlaces
  rw [authority_head, Topology.components_byRole hacc]
  unfold Topology.dependents
  rw [byRole_eq, byRole_eq]
  rcases hp : placesOf declared shape indexPolicy [.authority] with _ | ⟨p, ps⟩
  · exact ⟨rfl, rfl⟩
  · have hlen := length_authority hacc
    rw [hp, List.length_cons] at hlen
    obtain rfl := List.eq_nil_of_length_eq_zero (by omega : ps.length = 0)
    have hsplit : placesOf declared shape indexPolicy [.component, .dependent] = _ :=
      placesOf_append declared shape indexPolicy [.component] [.dependent]
    rw [if_neg (List.cons_ne_nil _ _), hsplit, List.map_append]
    exact ⟨rfl, rfl⟩

variable {i : Fin n} {t : Instant} {clock : Clock Instant (C i)} {ask : C i → Except Exn (Option (part i))}
  {answer : Instant → Except Exn (Option (part i))} {q : M (C i) Unit}

section Loops

variable {γ : Type} {x : γ} {xs : List γ} {f : γ → M (Node (Media C I) K V P) Unit} (hstays : Moves clock.Stays q)
  (hf : x ∈ xs → OkAt (childLens i) q (f x)) (hother : ∀ y, y ≠ x → Moves (childLens i).Keeps (f y))

include hstays hf hother

omit [DecidableEq K] in
/-- A loop whose steps run `q` at a child, or leave it alone, takes no time there where it returns. -/
theorem loop_shows {s s' : Node (Media C I) K V P} (ht : clock.Shows t (s.media.1 i)) {y : γ} (hy : y ∈ xs)
    (hrun : f y s = (.ok (), s')) : clock.Shows t (s'.media.1 i) := by
  by_cases hyx : y = x
  · subst hyx
    have hat : q (s.media.1 i) = (.ok (), s'.media.1 i) := hf hy s s' hrun
    have hstay := hstays (s.media.1 i) t ht
    rwa [hat] at hstay
  · have hkeep := hother y hyx s
    rw [hrun] at hkeep
    have hsame : s'.media.1 i = s.media.1 i := hkeep
    rwa [hsame]

omit [DecidableEq K] [∀ i, DecidableEq (part i)] in
theorem loop_foretells (hx : x ∈ xs)
    (hq : ∀ st st', clock.Shows t st → q st = (.ok (), st') → clock.Foretells ask t answer st')
    {s s' : Node (Media C I) K V P} (ht : clock.Shows t (s.media.1 i)) (hrun : forM xs f s = (.ok (), s')) :
    clock.Foretells ask t answer (s'.media.1 i) := by
  refine forM_brings (I := fun s => clock.Shows t (s.media.1 i))
    (P := fun s => clock.Foretells ask t answer (s.media.1 i)) hx
    (fun y hy s s' hs hrun => loop_shows hstays hf hother hs hy hrun)
    (fun s s' hs hrun => hq _ _ hs (hf hx s s' hrun))
    (fun y _ hyx s s' _ hs hrun => ?_) ht hrun
  have hkeep := hother y hyx s
  rw [hrun] at hkeep
  have hsame : s'.media.1 i = s.media.1 i := hkeep
  rwa [hsame]

end Loops

omit [DecidableEq K] [∀ i, DecidableEq (part i)] in
/-- Where the steps at a child run `q` there, and those elsewhere leave the child alone, what `q` brings about
    there has been brought about when both loops have returned. -/
theorem phases_foretell {γ : Type} {ps qs : List γ} {x : γ} {f g : γ → M (Node (Media C I) K V P) Unit}
    (hstays : Moves clock.Stays q)
    (hq : ∀ st st', clock.Shows t st → q st = (.ok (), st') → clock.Foretells ask t answer st')
    (hf : x ∈ ps → OkAt (childLens i) q (f x)) (hg : x ∈ qs → OkAt (childLens i) q (g x))
    (hf' : ∀ y, y ≠ x → Moves (childLens i).Keeps (f y)) (hg' : ∀ y, y ≠ x → Moves (childLens i).Keeps (g y))
    (hx : x ∈ ps ∨ x ∈ qs) {s s' : Node (Media C I) K V P} (ht : clock.Shows t (s.media.1 i))
    (hrun : (forM ps f >>= fun _ => forM qs g) s = (.ok (), s')) :
    clock.Foretells ask t answer (s'.media.1 i) := by
  obtain ⟨u, s1, hfirst, hlast⟩ := bind_eq_ok hrun
  by_cases hxq : x ∈ qs
  · have hlands : Lands (Order.Preimage (childLens i).get clock.Stays) (forM ps f) :=
      (lands_closed _).forM fun y hy s u s' hrun t ht => loop_shows hstays hf hf' ht hy hrun
    exact loop_foretells hstays hg hg' hxq hq (hlands s u s1 hfirst t ht) hlast
  · have hkeep := Moves.forM (fun y hy => hg' y fun hyx => hxq (hyx ▸ hy)) s1
    rw [hlast] at hkeep
    have hsame : s'.media.1 i = s1.media.1 i := hkeep
    rw [hsame]
    exact loop_foretells hstays hf hf' (hx.resolve_right hxq) hq ht hfirst

variable {shown : Showing (part i)} {k : K} (op : SyncOp K V) {left : Option (V × WriteOptions)}
  {s s' : Node (Media C I) K V P} (h : (stores i).IsMap clock shown) (htended : (declared i).Tended)
  (hleft : op.leaves k = some left) (ht : clock.Shows t (s.media.1 i))

/-- The child foretells its part of what was left under the key. -/
def ForetellsPart (stores : ∀ i, KvStore (C i) K (part i)) (shape : ∀ i, Shape V P (part i)) (i : Fin n)
    (clock : Clock Instant (C i)) (shown : Showing (part i)) (k : K) (left : Option (V × WriteOptions)) (t : Instant)
    (st : C i) : Prop :=
  clock.Foretells ((stores i).answer k) t
    (fun u => .ok (left.bind fun w => shown.slotted (shape i).slot (stores i).supportsWriteClock w.1 w.2 t u)) st

omit [∀ i, DecidableEq (part i)] in
theorem child_mem_placesOf {roles : List Role} :
    some i ∈ placesOf declared shape indexPolicy roles ↔ (declared i).role ∈ roles :=
  (mem_placesOf _ _ _).trans (and_iff_right (mem_nodePlaces _ _ i))

omit [∀ i, DecidableEq (part i)] in
theorem not_authority_of_nil (hnil : placesOf declared shape indexPolicy [.authority] = []) :
    (declared i).role ≠ .authority := by
  intro hrole
  have hmem : some i ∈ placesOf declared shape indexPolicy [.authority] :=
    child_mem_placesOf.mpr (List.mem_singleton.mpr hrole)
  rw [hnil] at hmem
  cases hmem

theorem okAt_part : OkAt (Media.child i) (op.on ((shape i).target (declared i) (stores i)))
    (op.on (mediaTarget stores declared shape index indexPolicy (some i))) := by
  rw [mediaTarget_child, on_zoom_target]
  exact runsAt_zoom.okAt

theorem okAt_settled (what : String) (hpolicy : (declared i).policy = .required) :
    OkAt (childLens i) (op.on ((shape i).target (declared i) (stores i)))
      (afterwards what op (mediaTarget stores declared shape index indexPolicy (some i))) := by
  have hplace : (mediaTarget stores declared shape index indexPolicy (some i)).policy = .required :=
    (nodeTarget_policy _ _ _ _ _ _).trans hpolicy
  unfold afterwards
  rw [hplace]
  exact okAt_onMedia ((okAt_part op).settle _ _ _)

include h hleft ht

/-- Of two loops over the places of a node, one of them runs the operation at the child. -/
theorem reached_foretells {ps qs : List (Option (Fin n))} {f : Option (Fin n) → M (Node (Media C I) K V P) Unit}
    {what : String} (hf : OkAt (childLens i) (op.on ((shape i).target (declared i) (stores i))) (f (some i)))
    (hf' : ∀ p, p ≠ some i → Moves (childLens i).Keeps (f p)) (hx : some i ∈ ps ∨ some i ∈ qs)
    (hpolicy : some i ∈ qs → (declared i).policy = .required)
    (hrun : (forM ps f >>= fun _ => forM qs fun p =>
      afterwards what op (mediaTarget stores declared shape index indexPolicy p)) s = (.ok (), s')) :
    ForetellsPart stores shape i clock shown k left t (s'.media.1 i) :=
  phases_foretell ((Shape.target_about _ _ h.about_any).on op fun _ _ => trivial)
    (fun _ _ hst hq => Shape.target_foretells h _ _ hleft hst hq) (fun _ => hf)
    (fun hmem => okAt_settled op what (hpolicy hmem)) hf' (fun _ hne => keeps_afterwards what op hne) hx ht hrun

include htended

/-- Where a write returns, a child it tends to foretells its part of it. -/
theorem written_foretells {what : String}
    (hrun : (forM (mediaTopology stores declared shape index indexPolicy assemble).committing (committed op) >>=
      fun _ => forM (mediaTopology stores declared shape index indexPolicy assemble).dependents
        (afterwards what op)) s = (.ok (), s')) : ForetellsPart stores shape i clock shown k left t (s'.media.1 i) := by
  unfold Topology.committing Topology.dependents at hrun
  rw [byRole_eq, byRole_eq, forM_map, forM_map] at hrun
  refine reached_foretells op h hleft ht (okAt_onMedia ((okAt_part op).runCommitting _ _))
    (fun p hne => keeps_committed op hne) ?_ (fun hmem => ?_) hrun
  · rw [child_mem_placesOf, child_mem_placesOf]
    rcases htended with hrole | ⟨hrole, -⟩
    · exact .inl (by simp [hrole])
    · cases hd : (declared i).role <;> simp [hd] at hrole ⊢
  · rw [child_mem_placesOf, List.mem_singleton] at hmem
    rcases htended with hrole | ⟨-, hpolicy⟩
    · rw [hmem] at hrole
      cases hrole
    · exact hpolicy

/-- Where a removal returns, a child it tends to foretells that nothing is left. -/
theorem removed_foretells (hacc : (mediaTopology stores declared shape index indexPolicy assemble).Accepted)
    {what : String}
    (hrun : (forM (mediaTopology stores declared shape index indexPolicy assemble).removedNow
        (fun t => Node.onMedia (op.on t)) >>=
      fun _ => forM (mediaTopology stores declared shape index indexPolicy assemble).removedAfterCommit
        (afterwards what op)) s = (.ok (), s')) : ForetellsPart stores shape i clock shown k left t (s'.media.1 i) := by
  rw [(removed_places hacc).1, (removed_places hacc).2, forM_map, forM_map] at hrun
  refine reached_foretells op h hleft ht (okAt_onMedia (okAt_part op))
    (fun p hne => keeps_onMedia (on_keeps_child _ _ _ _ _ op hne)) ?_ (fun hmem => ?_) hrun
  · have hfallback : (declared i).role ≠ .fallback := by
      rcases htended with hrole | ⟨hrole, -⟩
      · rw [hrole]
        decide
      · exact hrole
    unfold removedPlaces
    split
    · next hnil =>
      have hauthority : (declared i).role ≠ .authority := not_authority_of_nil hnil
      show _ ∈ placesOf declared shape indexPolicy [.component] ∨ _ ∈ placesOf declared shape indexPolicy [.dependent]
      rw [child_mem_placesOf, child_mem_placesOf]
      cases hd : (declared i).role <;> simp [hd] at hfallback hauthority ⊢
    · show _ ∈ placesOf declared shape indexPolicy [.authority] ∨
        _ ∈ placesOf declared shape indexPolicy [.component, .dependent]
      rw [child_mem_placesOf, child_mem_placesOf]
      cases hd : (declared i).role <;> simp [hd] at hfallback ⊢
  · have hrole : (declared i).role ≠ .authority := by
      unfold removedPlaces at hmem
      split at hmem
      · next hnil => exact not_authority_of_nil hnil
      · have hlate := child_mem_placesOf.mp hmem
        intro hauthority
        rw [hauthority] at hlate
        simp at hlate
    exact (htended.resolve_left hrole).2

end Reaching

/-! ## A node of maps -/

/-- What a target tells besides its reads is what its store tells. -/
structure Target.Looks {S K V R : Type} (t : Target S K V R) (Q : ∀ {α : Type}, M S α → Prop) : Prop where
  versions : ∀ ks, Q (t.batchReadVersioned ks)
  scan : ∀ query, Q (t.scanEntries query)
  expired : ∀ now limit, Q (t.expiredKeys now limit)

section Stores

variable {S K V P : Type} [DecidableEq K] {T : Topology S K V P} {N : KvStore (Node S K V P) K V}

/-- A store a composition makes of its topology. -/
inductive Topology.Makes (T : Topology S K V P) : KvStore (Node S K V P) K V → Prop
  | store (typeName : String) : Makes T (T.store typeName)
  | zip (z : Zip) (typeName : String) : Makes T (z.store T typeName)

namespace Topology.Makes

theorem get (hN : T.Makes N) (k : K) : N.get k = Node.onMedia (T.read k) := by
  cases hN <;> rfl

theorem answer (hN : T.Makes N) (k : K) (s : Node S K V P) : N.answer k s = (T.read k s.media).1 := by
  show (N.get k s).1 = _
  rw [hN.get]
  rfl

theorem deferred (hN : T.Makes N) : N.writesAreDeferred = T.deferred := by
  cases hN <;> rfl

theorem about {R : S → S → Prop} [Std.Refl R] [IsTrans S R] {p : K → Prop} (hN : T.Makes N)
    (h : ∀ t ∈ T.all, t.About p R) (op : RecordOp K V) (hp : ∀ k ∈ op.keys, p k) :
    Moves (OfMedia R) (op.run N) := by
  cases hN with
  | store typeName => exact topology_about h typeName op hp
  | zip z typeName => exact zip_about h z typeName op hp

/-- What a zip's own class adds is metadata, and a refusal of conditional writes. -/
theorem runs (hN : T.Makes N) {op : RecordOp K V} {k : K} {left : Option (V × WriteOptions)}
    (hleft : op.leaves k = some left) : ∃ typeName, op.run N = op.run (T.store typeName) := by
  cases hN with
  | store typeName => exact ⟨typeName, rfl⟩
  | zip z typeName =>
    refine ⟨typeName, ?_⟩
    cases op with
    | writeIfUnchanged writes ttl => cases hleft
    | _ => rfl

theorem reads {Q : ∀ {α : Type}, M S α → Prop} {Q' : ∀ {α : Type}, M (Node S K V P) α → Prop} (hN : T.Makes N)
    (hr : Readers T Q) (hQ : ∀ {α : Type} {m : M S α}, Q m → Q' (Node.onMedia m)) (hparts : ∀ t ∈ T.parts, t.Reads Q) :
    N.Reads Q' := by
  cases hN with
  | store typeName => exact topologyStore_reads hr hQ typeName
  | zip z typeName => exact zipStore_reads hr hQ hparts z typeName

end Topology.Makes

section Looking

variable {R : Type} [DecidableEq R] {Q : ∀ {α : Type}, M S α → Prop}

omit [DecidableEq R] in
theorem Target.Looks.upcast {R' : Type} {t : Target S K V R} (hc : Closed Q) (h : t.Looks Q) (f : R → R') :
    (t.upcast f).Looks Q :=
  ⟨fun ks => hc.map (h.versions ks) _, fun query => hc.map (h.scan query) _, h.expired⟩

theorem storeTarget_looks {s : KvStore S K R} (hc : Closed Q) (h : s.Looks Q) (d : Declared) (slot : V → Option R)
    (up : R → P) : (storeTarget d s slot up : Target S K V P).Looks Q :=
  ⟨fun ks => hc.map (h.versions ks) _, fun query => hc.map (h.scan query) _, h.expired⟩

theorem Shape.target_looks {s : KvStore S K R} (hc : Closed Q) (h : s.Looks Q) (d : Declared) (sh : Shape V P R) :
    (sh.target d s : AnyTarget S K V P).Looks Q := by
  cases sh with
  | whole => exact (storeTarget_looks hc h d some id).upcast hc Sum.inl
  | piece slot up => exact (storeTarget_looks hc h d slot up).upcast hc Sum.inr

theorem Shape.target?_looks {s : KvStore S K R} (hc : Closed Q) (h : s.Looks Q) (d : Declared) (sh : Shape V P R) :
    ∀ t ∈ sh.target? d s, t.Looks Q := by
  intro t ht
  cases sh with
  | whole =>
    rw [← Option.some.inj ht]
    exact storeTarget_looks hc h d some id
  | piece slot up => cases ht

end Looking

section Telling

variable {Q : ∀ {α : Type}, M S α → Prop} (h : Readers T Q) (hall : ∀ t ∈ T.all, t.Looks Q)
  (htargets : ∀ t ∈ T.targets, t.Looks Q)

include h hall htargets

/-- A read of the records against versions asks the authority for the versions. -/
theorem Readers.versions (keys : List K) : Q (T.batchReadVersioned keys) := by
  unfold Topology.batchReadVersioned
  split
  · unfold Topology.requireAuthority
    cases ha : T.authority with
    | none => exact h.closed.raise _
    | some authority =>
      simp only [pure_bind]
      refine h.closed.bind ((hall authority (List.mem_of_find?_eq_some ha)).versions _) fun seen => ?_
      exact h.closed.bind (h.toPartReaders.assembleMany _ _) fun records => h.closed.pure _
  · unfold Topology.requireWhole
    cases ha : T.wholeAuthority with
    | none => exact h.closed.raise _
    | some whole =>
      simp only [pure_bind]
      refine h.closed.bind ((htargets whole (List.mem_of_find?_eq_some ha)).versions _) fun seen => ?_
      refine h.closed.bind (h.closed.foldlM (fun values t ht => ?_) _) fun values => h.closed.pure _
      simp only
      split
      · exact h.closed.pure _
      · exact h.closed.bind ((h.whole t (Readers.mem_lookups (List.mem_of_mem_filter ht))).batchRead _) fun found =>
          h.closed.pure _

/-- A scan of the records lists the whole authority, or the parts' keys, each confirmed by a read. -/
theorem Readers.scan (query : ScanQuery K) : Q (T.scanEntries query) := by
  have hscanned : ∀ t ∈ T.scanned, t ∈ T.all := by
    intro t ht
    unfold Topology.scanned at ht
    cases ha : T.authority with
    | some authority =>
      rw [ha] at ht
      obtain rfl := List.mem_singleton.mp ht
      exact List.mem_of_find?_eq_some ha
    | none =>
      rw [ha] at ht
      exact List.mem_append_right _ (List.mem_of_mem_filter ht)
  unfold Topology.scanEntries
  cases ha : T.wholeAuthority with
  | some whole => exact (htargets whole (List.mem_of_find?_eq_some ha)).scan query
  | none =>
    refine h.closed.bind ?_ fun keys => h.closed.bind (h.closed.mapM fun page _ => ?_) fun pages => h.closed.pure _
    · unfold Topology.unionKeys
      exact h.closed.bind (h.closed.mapM fun t ht => (hall t (hscanned t ht)).scan _) fun scans => h.closed.pure _
    · unfold Topology.confirm
      split
      · exact h.closed.bind (h.batchRead page) fun found => h.closed.pure _
      · exact h.closed.bind (h.batchExists page) fun present => h.closed.pure _

omit htargets in
theorem Readers.expired (now : Option Instant) (limit : Int) : Q (T.expiredKeys now limit) := by
  unfold Topology.expiredKeys
  cases ha : T.authority with
  | some authority => exact (hall authority (List.mem_of_find?_eq_some ha)).expired now limit
  | none =>
    simp only
    split
    · exact h.closed.raise _
    · exact h.closed.pure _

theorem Topology.Makes.looks {Q' : ∀ {α : Type}, M (Node S K V P) α → Prop} (hN : T.Makes N)
    (hQ : ∀ {α : Type} {m : M S α}, Q m → Q' (Node.onMedia m)) : N.Looks Q' := by
  cases hN <;>
    exact ⟨fun ks => hQ (h.versions hall htargets ks), fun query => hQ (h.scan hall htargets query),
      fun now limit => hQ (h.expired hall now limit)⟩

end Telling

end Stores

section Nodes

variable {K V P : Type} [DecidableEq K] {n m : Nat} {C : Fin n → Type} {I : Fin m → Type} {part : Fin n → Type}
  [∀ i, DecidableEq (part i)] {stores : ∀ i, KvStore (C i) K (part i)} {declared : Fin n → Declared}
  {shape : ∀ i, Shape V P (part i)} {index : ∀ j, Index (I j) K V} {indexPolicy : Option SyncPolicy}
  {assemble : Option (Parts V P → Option V)} {clock : ∀ i, Clock Instant (C i)} {shown : ∀ i, Showing (part i)}
  {seen : Fin n → Prop}

/-- The time of a node, as the children seen show it. -/
def nodeClock (clock : ∀ i, Clock Instant (C i)) (seen : Fin n → Prop) : Clock Instant (Node (Media C I) K V P) where
  Shows t s := ∀ i, seen i → (clock i).Shows t (s.media.1 i)
  goTo t s := { s with media := (fun i => (clock i).goTo t (s.media.1 i), s.media.2) }
  shows_goTo t s i _ := (clock i).shows_goTo t (s.media.1 i)
  goTo_goTo t u s := by simp only [Clock.goTo_goTo]

section Asking

variable (hmaps : ∀ i, seen i → (stores i).IsMap (clock i) (shown i))

include hmaps

omit [∀ i, DecidableEq (part i)] in
theorem child_reads (i : Fin n) : ((stores i).zoom (Media.child i : Lens (Media C I) (C i))).Reads
    (Moves (OnParts seen fun i => (stores i).Quiet (clock i))) :=
  KvStore.Reads.zoom _ (fun {_} {_} hm => onParts_child fun hi => (hmaps i hi).reads.isRead hm)
    (KvStore.isRead_reads fun {_} {_} hm => hm)

/-- The reads of a node are quiet at the children seen, which are not filled. -/
theorem media_readers (hfill : ∀ i, seen i → (declared i).fill = false) :
    Readers (mediaTopology stores declared shape index indexPolicy assemble)
      (Moves (OnParts seen fun i => (stores i).Quiet (clock i))) := by
  refine mediaTopology_readers (moves_closed _) (child_reads hmaps) fun t ht hfilled ws o =>
    Composition.moves_tryFill ?_
  rcases List.mem_append.mp ht with ht | ht
  · obtain ⟨i, -, ht⟩ := List.mem_filterMap.mp ht
    have hunseen : ¬ seen i := fun hi => by
      rw [(Shape.target?_declared _ _ ht).2, hfill i hi] at hfilled
      cases hfilled
    have hany : (stores i).Writes fun {_} _ => True :=
      ⟨fun _ _ _ => trivial, fun _ _ => trivial, fun _ _ => trivial, fun _ => trivial, fun _ => trivial,
        fun _ => trivial, fun _ => trivial⟩
    exact (Shape.target?_writes (moves_closed _) _ _ (KvStore.Writes.zoom _
      (fun {_} {_} _ => onParts_child fun hi => absurd hi hunseen) hany) t ht).conditional ws o
  · obtain ⟨policy, -, rfl⟩ := Option.map_eq_some_iff.mp (Option.mem_toList.mp ht)
    exact Moves.raise _

/-- So is what the targets of a node tell besides. -/
theorem media_looks : (∀ t ∈ (mediaTopology stores declared shape index indexPolicy assemble).all,
      t.Looks (Moves (OnParts seen fun i => (stores i).Quiet (clock i)))) ∧
    ∀ t ∈ (mediaTopology stores declared shape index indexPolicy assemble).targets,
      t.Looks (Moves (OnParts seen fun i => (stores i).Quiet (clock i))) := by
  have hclosed : @Closed Exn (Media C I) (Moves (OnParts seen fun i => (stores i).Quiet (clock i))) := moves_closed _
  have hchild : ∀ i, ((stores i).zoom (Media.child i : Lens (Media C I) (C i))).Looks
      (Moves (OnParts seen fun i => (stores i).Quiet (clock i))) := fun i =>
    ⟨fun ks => onParts_child fun hi => (hmaps i hi).looks.versions ks,
      fun query => onParts_child fun hi => (hmaps i hi).looks.scan query,
      fun now limit => onParts_child fun hi => (hmaps i hi).looks.expired now limit⟩
  have hindexes : ∀ (indexes : List (Index (Media C I) K V)) policy,
      (indexesTarget indexes policy : Target (Media C I) K V V).Looks
        (Moves (OnParts seen fun i => (stores i).Quiet (clock i))) := fun indexes policy =>
    ⟨fun _ => Moves.raise _, fun _ => Moves.raise _, fun _ _ => Moves.raise _⟩
  constructor
  · intro t ht
    rw [all_eq] at ht
    obtain ⟨place, -, rfl⟩ := List.mem_map.mp ht
    cases place with
    | none => exact (hindexes _ _).upcast hclosed Sum.inl
    | some i => exact Shape.target_looks hclosed (hchild i) _ _
  · intro t ht
    rcases List.mem_append.mp ht with ht | ht
    · obtain ⟨i, -, ht⟩ := List.mem_filterMap.mp ht
      exact Shape.target?_looks hclosed (hchild i) _ _ t ht
    · obtain ⟨policy, -, rfl⟩ := Option.map_eq_some_iff.mp (Option.mem_toList.mp ht)
      exact hindexes _ _

theorem topology_foretells (hacc : (mediaTopology stores declared shape index indexPolicy assemble).Accepted)
    (hdef : (mediaTopology stores declared shape index indexPolicy assemble).deferred = false) (typeName : String)
    {i : Fin n} (hi : seen i) (htended : (declared i).Tended) {op : RecordOp K V} {k : K}
    {left : Option (V × WriteOptions)} (hleft : op.leaves k = some left) {t : Instant}
    {s s' : Node (Media C I) K V P} (ht : (nodeClock clock seen).Shows t s)
    (hrun : op.run ((mediaTopology stores declared shape index indexPolicy assemble).store typeName) s = (.ok (), s')) :
    ForetellsPart stores shape i (clock i) (shown i) k left t (s'.media.1 i) := by
  obtain ⟨on, what, keys, s1, hon, hs1, hphases⟩ := op_phases hdef typeName hleft hrun
  have ht1 : (clock i).Shows t (s1.media.1 i) := by
    rcases hs1 with rfl | rfl
    · exact ht i hi
    · have habout : ∀ t ∈ (mediaTopology stores declared shape index indexPolicy assemble).all,
          t.About (fun _ => True) (OnParts seen fun i => (clock i).Stays) :=
        media_about fun i hi => (hmaps i hi).about_any
      exact heldBefore_about habout keys s i hi t (ht i hi)
  rcases hphases with hwritten | hremoved
  · exact written_foretells on (hmaps i hi) htended hon ht1 hwritten
  · exact removed_foretells on (hmaps i hi) htended hon ht1 hacc hremoved

end Asking

variable {N : KvStore (Node (Media C I) K V P) K V} (shown) (combine : (∀ i, Option (part i)) → Option V)

/-- What a node's parts make of their answers. The children seen show the instant, and answer so. -/
def Answering (stores : ∀ i, KvStore (C i) K (part i)) (clock : ∀ i, Clock Instant (C i)) (seen : Fin n → Prop) (k : K)
    (given : ∀ i, Except Exn (Option (part i))) (s : Media C I) : Prop :=
  ∀ i, seen i → (∃ t, (clock i).Shows t (s.1 i)) ∧ (stores i).answer k (s.1 i) = given i

omit [∀ i, DecidableEq (part i)] in
/-- Reads leave it so. -/
theorem Answering.kept (hmaps : ∀ i, seen i → (stores i).IsMap (clock i) (shown i)) {k : K}
    {given : ∀ i, Except Exn (Option (part i))} {s s' : Media C I} (h : Answering stores clock seen k given s)
    (hquiet : OnParts seen (fun i => (stores i).Quiet (clock i)) s s') : Answering stores clock seen k given s' := by
  intro i hi
  obtain ⟨⟨t, ht⟩, hgiven⟩ := h i hi
  obtain ⟨ht', hsame⟩ := (hquiet i hi).spares k t ht
  refine ⟨⟨t, ht'⟩, ?_⟩
  rw [← (hmaps i hi).now k t _ ht', hsame t (le_refl t), (hmaps i hi).now k t _ ht, hgiven]

/-- A read of the node goes by what the children seen answer. -/
def GoesBy (T : Topology (Media C I) K V P) (stores : ∀ i, KvStore (C i) K (part i)) (clock : ∀ i, Clock Instant (C i))
    (seen : Fin n → Prop) : Prop :=
  ∀ k given s s', Answering stores clock seen k given s → Answering stores clock seen k given s' →
    (T.read k s).1 = (T.read k s').1

section Going

variable {T : Topology (Media C I) K V P} (hN : T.Makes N) (hgoes : GoesBy T stores clock seen) {k : K}

include hN hgoes

omit [∀ i, DecidableEq (part i)]

theorem node_now (hmaps : ∀ i, seen i → (stores i).IsMap (clock i) (shown i)) {t : Instant}
    {s : Node (Media C I) K V P} (ht : (nodeClock clock seen).Shows t s) :
    N.answer k ((nodeClock clock seen).goTo t s) = N.answer k s := by
  rw [hN.answer, hN.answer]
  refine hgoes k (fun i => (stores i).answer k (s.media.1 i)) _ _ (fun i hi => ⟨⟨t, ?_⟩, ?_⟩) fun i hi =>
    ⟨⟨t, ht i hi⟩, rfl⟩
  · exact (clock i).shows_goTo t _
  · exact (hmaps i hi).now k t _ (ht i hi)

/-- A key's answers are spared where the children seen spare theirs. -/
theorem node_spares {s s' : Node (Media C I) K V P}
    (h : OnParts seen (fun i => (clock i).Spares ((stores i).answer k)) s.media s'.media) :
    (nodeClock clock seen).Spares (N.answer k) s s' := by
  intro t ht
  refine ⟨fun i hi => (h i hi t (ht i hi)).1, fun u hu => ?_⟩
  rw [hN.answer, hN.answer]
  refine hgoes k (fun i => (stores i).answer k ((clock i).goTo u (s.media.1 i))) _ _ (fun i hi => ⟨⟨u, ?_⟩, ?_⟩)
    fun i _ => ⟨⟨u, (clock i).shows_goTo u _⟩, rfl⟩
  · exact (clock i).shows_goTo u _
  · exact (h i hi t (ht i hi)).2 u hu

theorem node_quiet {s s' : Node (Media C I) K V P}
    (h : OfMedia (OnParts seen fun i => (stores i).Quiet (clock i)) s s') : N.Quiet (nodeClock clock seen) s s' where
  stays t ht i hi := (h i hi).stays t (ht i hi)
  spares _ := node_spares hN hgoes fun i hi => (h i hi).spares _

end Going

/-- A node over maps is a map. Its record is what the children seen make of their parts, where a read of it goes by
    what they answer. -/
theorem node_isMap (hmaps : ∀ i, seen i → (stores i).IsMap (clock i) (shown i))
    (htended : ∀ i, seen i → (declared i).Tended) (hfill : ∀ i, seen i → (declared i).fill = false)
    (hacc : (mediaTopology stores declared shape index indexPolicy assemble).Accepted)
    (hdef : (mediaTopology stores declared shape index indexPolicy assemble).deferred = false)
    (hN : (mediaTopology stores declared shape index indexPolicy assemble).Makes N)
    (hgoes : GoesBy (mediaTopology stores declared shape index indexPolicy assemble) stores clock seen)
    (hcombine : ∀ k held s, Answering stores clock seen k (fun i => .ok (held i)) s →
      ((mediaTopology stores declared shape index indexPolicy assemble).read k s).1 = .ok (combine held))
    (hnothing : combine (fun _ => none) = none) :
    N.IsMap (nodeClock clock seen) fun value options now u => combine fun i =>
      (shown i).slotted (shape i).slot (stores i).supportsWriteClock value options now u := by
  have hchild := child_reads (I := I) hmaps
  have hquiet : ∀ {α : Type} {m : M (Media C I) α}, Moves (OnParts seen fun i => (stores i).Quiet (clock i)) m →
      Moves (N.Quiet (nodeClock clock seen)) (Node.onMedia m) := fun {_ _} hm s => node_quiet hN hgoes (hm s.media)
  refine ⟨hN.deferred.trans hdef, fun k t s ht => node_now shown hN hgoes hmaps ht, ?_, ?_, fun k op hk s => ?_,
    fun op s => ?_, fun op k left hleft t s s' ht hrun u hu => ?_⟩
  · exact hN.reads (media_readers hmaps hfill) hquiet (mediaTopology_parts (moves_closed _) hchild)
  · obtain ⟨hall, htargets⟩ := media_looks hmaps
    exact hN.looks (media_readers hmaps hfill) hall htargets hquiet
  · have habout : ∀ t ∈ (mediaTopology stores declared shape index indexPolicy assemble).all,
        t.About (fun j => j ≠ k) (OnParts seen fun i => (clock i).Spares ((stores i).answer k)) :=
      media_about fun i hi => (hmaps i hi).about_other k
    exact node_spares hN hgoes (hN.about habout op (fun j hj hjk => hk (hjk ▸ hj)) s)
  · have habout : ∀ t ∈ (mediaTopology stores declared shape index indexPolicy assemble).all,
        t.About (fun _ => True) (OnParts seen fun i => (clock i).Stays) :=
      media_about fun i hi => (hmaps i hi).about_any
    exact fun t ht i hi => hN.about habout op (fun _ _ => trivial) s i hi t (ht i hi)
  · obtain ⟨typeName, hop⟩ := hN.runs hleft
    rw [hop] at hrun
    have hparts := hcombine k (fun i => left.bind fun w =>
      (shown i).slotted (shape i).slot (stores i).supportsWriteClock w.1 w.2 t u)
      ((nodeClock clock seen).goTo u s').media fun i hi => ⟨⟨u, (clock i).shows_goTo u _⟩,
        topology_foretells hmaps hacc hdef typeName hi (htended i hi) hleft ht hrun u hu⟩
    show N.answer k ((nodeClock clock seen).goTo u s') = _
    rw [hN.answer, hparts]
    cases left with
    | none => exact congrArg Except.ok hnothing
    | some w => rfl

end Nodes

end Kvtsjl
